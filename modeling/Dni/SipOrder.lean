import Dni.Lib.Binary64
import Dni.SipAttribution

namespace Dni

open GoMap Sieve Bytes Loops

/-- Of lists with the same members, of which at most one passes a test, both find that one. -/
theorem find?_eq_of_unique {α : Type} {p : α → Bool} {xs ys : List α} (h : ∀ x, x ∈ xs ↔ x ∈ ys)
    (hone : ∀ x ∈ xs, ∀ y ∈ xs, p x = true → p y = true → x = y) : xs.find? p = ys.find? p := by
  cases hx : xs.find? p with
  | none =>
    rw [List.find?_eq_none] at hx
    apply Eq.symm
    rw [List.find?_eq_none]
    intro y hy
    exact hx y ((h y).mpr hy)
  | some x =>
    have hxs := List.mem_of_find?_eq_some hx
    have hsome : (ys.find? p).isSome := by
      rw [List.find?_isSome]
      exact ⟨x, (h x).mp hxs, List.find?_some hx⟩
    obtain ⟨y, hy⟩ := Option.isSome_iff_exists.mp hsome
    have hys := (h y).mpr (List.mem_of_find?_eq_some hy)
    rw [hy, hone x hxs y hys (List.find?_some hx) (List.find?_some hy)]

theorem getMinMax_perm {ips jps : List UInt32} (h : ips.Perm jps) : getMinMax ips = getMinMax jps := by
  have hcomm : RightCommutative fun (r : UInt32 × UInt32) (val : UInt32) =>
      (if val < r.1 then val else r.1, if r.2 < val then val else r.2) := by
    constructor
    intro r x y
    simp only [UInt32.lt_iff_toNat_lt, Prod.mk.injEq, ← UInt32.toNat_inj]
    grind
  exact h.foldl_eq _

theorem fw3Nets_perm (cover : Int) {ips jps : List UInt32} (h : ips.Perm jps) (g : UInt32) :
    fw3Nets cover ips g = fw3Nets cover jps g := by
  rw [fw3Nets, fw3Nets, getMinMax_perm h, h.length_eq]

theorem fw2Nets_perm (cover : Int) {ips jps : List UInt32} (h : ips.Perm jps) (g : UInt32) :
    fw2Nets cover ips (ips.map (· &&& 0xFF00)) g = fw2Nets cover jps (jps.map (· &&& 0xFF00)) g := by
  rw [fw2Nets, fw2Nets, getMinMax_perm (h.map _), h.length_eq, (h.map _).length_eq]

/-- At most one of some networks has a given address. -/
def OneCovers (nets : List NetIPNet) : Prop :=
  ∀ a : UInt32, ∀ n ∈ nets, ∀ m ∈ nets, n.Covers (uiton a) → m.Covers (uiton a) → n = m

theorem oneCovers_singleton (n : NetIPNet) : OneCovers [n] := by
  intro a x hx y hy _ _
  rw [List.mem_singleton.mp hx, List.mem_singleton.mp hy]

theorem ipRangeToCIDR_one {start stop : UInt32} (h : start ≤ stop) {nets : List NetIPNet}
    (hn : ipRangeToCIDR start stop = some nets) : OneCovers nets := by
  have hv : Range.Valid ⟨uiton start, uiton stop⟩ :=
    ⟨Or.inl rfl, rfl, by rw [val_uiton, val_uiton]; exact UInt32.le_iff_toNat_le.mp h⟩
  obtain ⟨nets', hn', hs⟩ := Range.toIPNets_spec hv
  have heq : nets = nets' := Option.some.inj (hn.symm.trans hn')
  subst heq
  intro a n hn m hm hca hcb
  by_contra hne
  have : Std.Symm fun n m : NetIPNet => ¬ (n.Covers (uiton a) ∧ m.Covers (uiton a)) :=
    ⟨fun _ _ h hc => h hc.symm⟩
  have hpair := hs.ascending.imp fun {x y} hb (hc : x.Covers (uiton a) ∧ y.Covers (uiton a)) =>
    hb.disjoint hc.1 hc.2
  exact hpair.forall hn hm hne ⟨hca, hcb⟩

theorem fw3Nets_one {cover : Int} {ips : List UInt32} {g : UInt32} (hne : ips ≠ []) {nets : List NetIPNet}
    (h : fw3Nets cover ips g = some nets) : OneCovers nets := by
  obtain ⟨x, hx, y, hy, hmm, hends⟩ := getMinMax_spec hne
  unfold fw3Nets at h
  simp only [hmm] at h
  split at h
  next => cases h; exact oneCovers_singleton _
  next =>
    split at h
    next => cases h; exact oneCovers_singleton _
    next => exact ipRangeToCIDR_one (UInt32.le_iff_toNat_le.mpr (hends x hx).2) h

theorem fw2Nets_one {cover : Int} {ips : List UInt32} {g : UInt32} (hne : ips ≠ [])
    (hm : ∀ x ∈ ips, x &&& 0xFFFF0000 = g) {nets : List NetIPNet}
    (h : fw2Nets cover ips (ips.map (· &&& 0xFF00)) g = some nets) : OneCovers nets := by
  have hne' : ips.map (· &&& 0xFF00) ≠ [] := by simpa
  obtain ⟨x', hx', y', hy', hmm, hends⟩ := getMinMax_spec hne'
  unfold fw2Nets at h
  simp only [hmm] at h
  split at h
  next => cases h; exact oneCovers_singleton _
  next =>
    apply ipRangeToCIDR_one _ h
    obtain ⟨x, hx, hxx⟩ := List.mem_map.mp hx'
    obtain ⟨y, hy, hyy⟩ := List.mem_map.mp hy'
    have hle := (hends x' hx').2
    rw [← hxx, ← hyy, toNat_third, toNat_third] at hle
    have htx := congrArg UInt32.toNat (hm x hx)
    have hty := congrArg UInt32.toNat (hm y hy)
    rw [toNat_and_top] at htx hty
    rw [← hxx, ← hyy, third_add_top (hm x hx), third_add_top (hm y hy), UInt32.le_iff_toNat_le,
      toNat_and_high, toNat_and_high]
    omega

theorem fw3Nets_in {cover : Int} {ips : List UInt32} {g : UInt32} {nets : List NetIPNet} (hne : ips ≠ [])
    (hm : ∀ x ∈ ips, x &&& 0xFFFFFF00 = g) (h : fw3Nets cover ips g = some nets) {n : NetIPNet}
    (hn : n ∈ nets) {a : UInt32} (ha : n.Covers (uiton a)) : a &&& 0xFFFFFF00 = g := by
  obtain ⟨nets', h', hspec⟩ := fw3Nets_spec cover hne hm
  rw [h] at h'
  cases h'
  exact ((hspec a).mp ⟨n, hn, ha⟩).and_high hm

theorem fw2Nets_in {cover : Int} {ips : List UInt32} {g : UInt32} {nets : List NetIPNet} (hne : ips ≠ [])
    (hm : ∀ x ∈ ips, x &&& 0xFFFF0000 = g)
    (h : fw2Nets cover ips (ips.map (· &&& 0xFF00)) g = some nets) {n : NetIPNet} (hn : n ∈ nets)
    {a : UInt32} (ha : n.Covers (uiton a)) : a &&& 0xFFFF0000 = g := by
  obtain ⟨nets', h', hspec⟩ := fw2Nets_spec cover hne hm
  rw [h] at h'
  cases h'
  have hcov := (hspec a).mp ⟨n, hn, ha⟩
  split at hcov
  next => exact hcov
  next =>
    apply hcov.and_top
    intro z hz
    obtain ⟨x, hx, hxz⟩ := List.mem_map.mp hz
    rw [← hxz, and_top_of_and_high, hm x hx]

section Tier

variable (mask : UInt32) (thr : Int) (emit : List UInt32 → UInt32 → Option (List NetIPNet))

/-- A network written for one of the groups that a tier selects. -/
def SelectedNet (es : List (UInt32 × Int)) (n : NetIPNet) : Prop :=
  ∃ e ∈ es, (maskTier mask (suspectHot thr)).Hot es (e.1 &&& mask) ∧
    ∃ nets, emit (members mask es (e.1 &&& mask)) (e.1 &&& mask) = some nets ∧ n ∈ nets

variable {mask thr emit}

theorem SelectedNet.perm (hperm : ∀ {ips jps}, ips.Perm jps → ∀ g, emit ips g = emit jps g)
    {es fs : List (UInt32 × Int)} (h : es.Perm fs) (n : NetIPNet) :
    SelectedNet mask thr emit es n ↔ SelectedNet mask thr emit fs n := by
  unfold SelectedNet
  simp only [h.mem_iff, Tier.hot_perm h, hperm (members_perm h mask _)]

/-- The networks of a tier are those of the groups it selects, in whatever order the maps are read. -/
theorem mem_tier_iff (hperm : ∀ {ips jps}, ips.Perm jps → ∀ g, emit ips g = emit jps g)
    {m : IPCount} {o o' : Order UInt32 Int} {run : UInt32 → Option (List NetIPNet)}
    (hrun : ∀ e ∈ o.run m, run (e.1 &&& mask) = emit (members mask (o.run m) (e.1 &&& mask)) (e.1 &&& mask))
    {netss : List (List NetIPNet)}
    (h : (suspectKeys o' (groupCounts 64 mask (o.run m)) thr).mapM run = some netss) (n : NetIPNet) :
    n ∈ netss.flatten ↔ SelectedNet mask thr emit (pairs m) n := by
  rw [← SelectedNet.perm hperm (o.perm m), mem_mapM_flatten h]
  apply Iff.intro
  · intro ⟨g, hg, nets, hnets, hn⟩
    obtain ⟨⟨e, he, hk⟩, hhot⟩ := (mem_suspectKeys _ _ _ _ _).mp hg
    subst hk
    rw [hrun e he] at hnets
    exact ⟨e, he, hhot, nets, hnets, hn⟩
  · intro ⟨e, he, hhot, nets, hnets, hn⟩
    rw [← hrun e he] at hnets
    exact ⟨e.1 &&& mask, (mem_suspectKeys _ _ _ _ _).mpr ⟨⟨e, he, rfl⟩, hhot⟩, nets, hnets, hn⟩

/-- Networks of two groups are apart, and so are those of one. -/
theorem SelectedNet.one {es : List (UInt32 × Int)}
    (hone : ∀ {ips g nets}, ips ≠ [] → (∀ x ∈ ips, x &&& mask = g) → emit ips g = some nets → OneCovers nets)
    (hin : ∀ {ips g nets}, ips ≠ [] → (∀ x ∈ ips, x &&& mask = g) → emit ips g = some nets →
      ∀ n ∈ nets, ∀ a, n.Covers (uiton a) → a &&& mask = g) {n m : NetIPNet} {a : UInt32}
    (hn : SelectedNet mask thr emit es n) (hm : SelectedNet mask thr emit es m)
    (hna : n.Covers (uiton a)) (hma : m.Covers (uiton a)) : n = m := by
  obtain ⟨e, he, _, nets, hnets, hn⟩ := hn
  obtain ⟨f, hf, _, nets', hnets', hm⟩ := hm
  have hne := members_ne_nil mask he
  have hke := hin hne members_key hnets n hn a hna
  have hkf := hin (members_ne_nil mask hf) members_key hnets' m hm a hma
  rw [hke] at hkf
  rw [← hkf, hnets] at hnets'
  cases hnets'
  exact hone hne members_key hnets a n hn m hm hna hma

end Tier

namespace SndAttackerIPMergeTask

variable {F : Type} [FloatArith F] (t : SndAttackerIPMergeOptions F) (s : F) (m : IPCount)

def Net24 (n : NetIPNet) : Prop :=
  SelectedNet 0xFFFFFF00 (numThreshold s t.ipFw3CountRatio) (fw3Nets t.ipSegCoverThreshold)
    ((plan t s).rest32 (pairs m)) n

def Net16 (n : NetIPNet) : Prop :=
  SelectedNet 0xFFFF0000 (numThreshold s t.ipFw2CountRatio)
    (fun ips => fw2Nets t.ipSegCoverThreshold ips (ips.map (· &&& 0xFF00))) ((plan t s).rest24 (pairs m)) n

/-- The networks of each tier, said without the orders of the run, apart from the sum `s`. -/
structure Tiers (r : SuspectSteps) : Prop where
  nets32 : ∀ n, n ∈ r.nets32 ↔ ∃ ip, (plan t s).Level32 (pairs m) ip ∧ uitoin ip uint32Max = n
  nets24 : ∀ n, n ∈ r.nets24 ↔ Net24 t s m n
  nets16 : ∀ n, n ∈ r.nets16 ↔ Net16 t s m n

theorem steps_tiers (ord : Nat → Order UInt32 Int) {r : SuspectSteps} (h : steps t ord m = some r) :
    Tiers t (ipCountSum (ord 0) m) m r := by
  obtain ⟨r', hr', hf⟩ := steps_spec t ord m
  have heq : r = r' := Option.some.inj (h.symm.trans hr')
  subst heq
  obtain ⟨⟨nets24, df2⟩, h24, h⟩ := Option.bind_eq_some_iff.mp h
  obtain ⟨⟨nets16, df3⟩, h16, h⟩ := Option.map_eq_some_iff.mp h
  obtain ⟨netss24, hs24, h24⟩ := Option.map_eq_some_iff.mp h24
  obtain ⟨netss16, hs16, h16⟩ := Option.map_eq_some_iff.mp h16
  cases h
  cases h24
  cases h16
  refine ⟨fun n => ?_, fun n => ?_, fun n => ?_⟩
  · have hstrong := (plan t (ipCountSum (ord 0) m)).mem_strong (ord 1) m
    simp only [← hstrong]
    exact List.mem_map
  · rw [Net24, ← SelectedNet.perm (fw3Nets_perm _) hf.df1]
    apply mem_tier_iff (fw3Nets_perm _) _ hs24
    intro e he
    dsimp only
    rw [getD_groupMembers he]
  · rw [Net16, ← SelectedNet.perm (fw2Nets_perm _) hf.df2]
    apply mem_tier_iff (fw2Nets_perm _) _ hs16
    intro e he
    dsimp only
    rw [getD_groupMembers he, getD_groupValues he]

theorem Net24.one {n n' : NetIPNet} {a : UInt32} (hn : Net24 t s m n) (hn' : Net24 t s m n')
    (ha : n.Covers (uiton a)) (ha' : n'.Covers (uiton a)) : n = n' :=
  SelectedNet.one (fun hne _ h => fw3Nets_one hne h) (fun hne hm h _ hn _ => fw3Nets_in hne hm h hn) hn hn' ha ha'

theorem Net16.one {n n' : NetIPNet} {a : UInt32} (hn : Net16 t s m n) (hn' : Net16 t s m n')
    (ha : n.Covers (uiton a)) (ha' : n'.Covers (uiton a)) : n = n' :=
  SelectedNet.one (fun hne hm h => fw2Nets_one hne hm h) (fun hne hm h _ hn _ => fw2Nets_in hne hm h hn)
    hn hn' ha ha'

/-- A packet goes to the same network, whatever the orders: a tier has one for it at most, and the
tiers are searched one after the other. -/
theorem Tiers.find? {r r' : SuspectSteps} (h : Tiers t s m r) (h' : Tiers t s m r')
    (hs : ∀ n ∈ r.nets32 ++ r.nets24 ++ r.nets16, n.Short) (a : UInt32) :
    (r.nets32 ++ r.nets24 ++ r.nets16).find? (fun n => n.contains (uiton a)) =
      (r'.nets32 ++ r'.nets24 ++ r'.nets16).find? fun n => n.contains (uiton a) := by
  have hcov : ∀ n ∈ r.nets32 ++ r.nets24 ++ r.nets16, n.contains (uiton a) = true → n.Covers (uiton a) :=
    fun n hn hc => ((hs n hn).contains_iff a).mp hc
  have h32 := @find?_eq_of_unique _ (fun n : NetIPNet => n.contains (uiton a)) r.nets32 r'.nets32
    (fun n => (h.nets32 n).trans (h'.nets32 n).symm) (by
      intro n hn n' hn' hc hc'
      have hx := hcov n (by simp [hn]) hc
      have hx' := hcov n' (by simp [hn']) hc'
      obtain ⟨x, _, hxn⟩ := (h.nets32 n).mp hn
      obtain ⟨x', _, hxn'⟩ := (h.nets32 n').mp hn'
      have hall : ∀ ip : UInt32, ip &&& uint32Max = ip := fun ip => UInt32.and_neg_one
      subst hxn hxn'
      rw [uitoin_covers, hall, hall] at hx hx'
      rw [← hx, ← hx'])
  have h24 := @find?_eq_of_unique _ (fun n : NetIPNet => n.contains (uiton a)) r.nets24 r'.nets24
    (fun n => (h.nets24 n).trans (h'.nets24 n).symm) fun n hn n' hn' hc hc' =>
      Net24.one t s m ((h.nets24 n).mp hn) ((h.nets24 n').mp hn') (hcov n (by simp [hn]) hc)
        (hcov n' (by simp [hn']) hc')
  have h16 := @find?_eq_of_unique _ (fun n : NetIPNet => n.contains (uiton a)) r.nets16 r'.nets16
    (fun n => (h.nets16 n).trans (h'.nets16 n).symm) fun n hn n' hn' hc hc' =>
      Net16.one t s m ((h.nets16 n).mp hn) ((h.nets16 n').mp hn') (hcov n (by simp [hn]) hc)
        (hcov n' (by simp [hn']) hc')
  simp only [List.find?_append, h32, h24, h16]

end SndAttackerIPMergeTask

/-- The groups depend on the networks through the first that contains an address, and on the
histogram through its addresses. -/
theorem sipBaseMerge_congr (hostNicSign : String) {nets nets' : List NetIPNet} {df df' : IPCount}
    (hfind : ∀ a : UInt32, nets.find? (fun n => n.contains (uiton a)) =
      nets'.find? fun n => n.contains (uiton a))
    (hmem : ∀ ip, ip ∈ df ↔ ip ∈ df') (isRand : Bool) (pinfos : List PacketInfo) :
    sipBaseMerge hostNicSign nets isRand df pinfos = sipBaseMerge hostNicSign nets' isRand df' pinfos := by
  have hstep : sipBaseMergeStep hostNicSign nets isRand df = sipBaseMergeStep hostNicSign nets' isRand df' := by
    funext stats packet
    simp only [sipBaseMergeStep, hfind, hmem]
  rw [sipBaseMerge, sipBaseMerge, hstep]

theorem eq_of_pairs_perm {m m' : IPCount} (h : (pairs m).Perm (pairs m')) (ip : UInt32) :
    m.lookup ip = m'.lookup ip := by
  apply Option.ext
  intro c
  rw [← mem_pairs, ← mem_pairs, h.mem_iff]

namespace SndAttackerIPMergeTask

/-- Two runs give the same networks, decision, residue and groups, the groups both for the residue and
for what is handed on of it. -/
structure RunsAgree (hostNicSign : String) (pinfos : List PacketInfo) (r r' : AttackerIPMergeResult)
    (df df' : IPCount) : Prop where
  nets : ∀ n, n ∈ r.attackerIPNets ↔ n ∈ r'.attackerIPNets
  decision : r.isRand = r'.isRand
  residue : ∀ ip, df.lookup ip = df'.lookup ip
  handed : ∀ ip, r.randIPCountDF.lookup ip = r'.randIPCountDF.lookup ip
  groups : sipBaseMerge hostNicSign r.attackerIPNets r.isRand df pinfos =
    sipBaseMerge hostNicSign r'.attackerIPNets r'.isRand df' pinfos
  handedGroups : sipBaseMerge hostNicSign r.attackerIPNets r.isRand r.randIPCountDF pinfos =
    sipBaseMerge hostNicSign r'.attackerIPNets r'.isRand r'.randIPCountDF pinfos

/-- The counts add up to the same float in every order. -/
def OneSum (F : Type) [FloatArith F] (m : IPCount) : Prop :=
  ∀ o o' : Order UInt32 Int, (ipCountSum o m : F) = ipCountSum o' m

/-- Where the sum does not depend on the order in which the map is read, nothing does. -/
theorem process_order_independent {F : Type} [FloatArith F] (t : SndAttackerIPMergeOptions F)
    (ord ord' : Nat → Order UInt32 Int) (nord nord' : Order UInt32 Unit) (m : IPCount)
    (normalIps : GoMap UInt32 Unit) (hostNicSign : String) (pinfos : List PacketInfo) (hsum : OneSum F m) :
    ∃ r r' df df', process t ord nord m normalIps = some r ∧ process t ord' nord' m normalIps = some r' ∧
      residue t ord nord m normalIps = some df ∧ residue t ord' nord' m normalIps = some df' ∧
      RunsAgree hostNicSign pinfos r r' df df' := by
  obtain ⟨s, r, df, hs, hr, hdf, ho⟩ := process_outcome t ord nord m normalIps
  obtain ⟨s', r', df', hs', hr', hdf', ho'⟩ := process_outcome t ord' nord' m normalIps
  have ht := steps_tiers t m ord hs
  have ht' := steps_tiers t m ord' hs'
  rw [hsum (ord' 0) (ord 0)] at ho' ht'
  have hrand : r.isRand = r'.isRand := Bool.eq_iff_iff.mpr (ho.decision.trans ho'.decision.symm)
  have hres := eq_of_pairs_perm (ho.residue.trans ho'.residue.symm)
  have hhand : ∀ ip, r.randIPCountDF.lookup ip = r'.randIPCountDF.lookup ip := by
    intro ip
    rw [ho.handed, ho'.handed, ← hrand]
    split
    next => rfl
    next => exact hres ip
  have hfind : ∀ a : UInt32, r.attackerIPNets.find? (fun n => n.contains (uiton a)) =
      r'.attackerIPNets.find? fun n => n.contains (uiton a) := by
    rw [ho.nets, ho'.nets]
    exact ht.find? t (ipCountSum (ord 0) m) m ht' (steps_short t ord hs)
  have hmem : ∀ {df df' : IPCount}, (∀ ip, df.lookup ip = df'.lookup ip) → ∀ ip, ip ∈ df ↔ ip ∈ df' := by
    intro df df' h ip
    rw [mem_iff_lookup, mem_iff_lookup, h]
  refine ⟨r, r', df, df', hr, hr', hdf, hdf', ?_, hrand, hres, hhand, ?_, ?_⟩
  · intro n
    simp only [ho.nets, ho'.nets, List.mem_append, ht.nets32, ht.nets24, ht.nets16, ht'.nets32,
      ht'.nets24, ht'.nets16]
  · rw [← hrand]
    exact sipBaseMerge_congr hostNicSign hfind (hmem hres) _ _
  · rw [← hrand]
    exact sipBaseMerge_congr hostNicSign hfind (hmem hhand) _ _

/-- The binary64 sum of the counts is exact up to 2^53. -/
theorem ipCountSum_float (o : Order UInt32 Int) {m : IPCount} (hpos : ∀ e ∈ pairs m, 0 ≤ e.2)
    (hsum : mass (pairs m) ≤ 2 ^ 53) : (ipCountSum o m : Float) = Binary64.ofInt (mass (pairs m)) := by
  have hfold : ∀ (es : List (UInt32 × Int)) (c : Int), 0 ≤ c → (∀ e ∈ es, 0 ≤ e.2) → c + mass es ≤ 2 ^ 53 →
      es.foldl (fun (c : Float) e => FloatArith.add c (FloatArith.ofInt e.2)) (Binary64.ofInt c) =
        Binary64.ofInt (c + mass es) := by
    intro es
    induction es with
    | nil => intro c _ _ _; simp [mass]
    | cons e es ih =>
      intro c hc hes hle
      have he := hes e (by simp)
      have hrest : 0 ≤ mass es := List.sum_nonneg fun x hx => by
        obtain ⟨f, hf, rfl⟩ := List.mem_map.mp hx
        exact hes f (by simp [hf])
      have hmass : mass (e :: es) = e.2 + mass es := List.sum_cons
      have hadd : FloatArith.add (Binary64.ofInt c) (FloatArith.ofInt e.2) = Binary64.ofInt (c + e.2) :=
        Binary64.ofInt_add hc he (by omega)
      rw [List.foldl_cons, hadd, ih (c + e.2) (by omega) (fun f hf => hes f (by simp [hf])) (by omega), hmass,
        Int.add_assoc]
  have hrun := hfold (o.run m) 0 le_rfl (fun e he => hpos e ((o.perm m).mem_iff.mp he)) (by
    rwa [mass_perm (o.perm m), Int.zero_add])
  rwa [mass_perm (o.perm m), Int.zero_add] at hrun

theorem oneSum_of_mass_le {m : IPCount} (hpos : ∀ e ∈ pairs m, 0 ≤ e.2) (hsum : mass (pairs m) ≤ 2 ^ 53) :
    OneSum Float m := fun o o' => (ipCountSum_float o hpos hsum).trans (ipCountSum_float o' hpos hsum).symm

/-- The spread attack, with 10.0.1.1 read last in the second run, and one packet of that address. -/
theorem process_order_independent_spread : ∃ r r' df df',
    process (usualOptions Float) (fun _ => Order.stored) Order.stored spreadAttack ∅ = some r ∧
      process (usualOptions Float) (fun _ => Order.last 0x0A000101) Order.stored spreadAttack ∅ = some r' ∧
      residue (usualOptions Float) (fun _ => Order.stored) Order.stored spreadAttack ∅ = some df ∧
      residue (usualOptions Float) (fun _ => Order.last 0x0A000101) Order.stored spreadAttack ∅ = some df' ∧
      RunsAgree "eth0" [AList.insert "SIP" 0x0A000101 ∅] r r' df df' :=
  process_order_independent (usualOptions Float) _ _ _ _ spreadAttack ∅ "eth0" _
    (oneSum_of_mass_le (by decide +kernel) (by decide +kernel))

/-- Three addresses, one of which has 2^53 packets. -/
def roundedSum : IPCount :=
  (((∅ : IPCount).insert 0x0A000001 1).insert 0x0A010001 1).insert 0x0A020001 (2 ^ 53)

/-- With ratios of one the strong address is an attacker when it is added first, and is not when it is
added last: the sum is then larger by two. -/
theorem process_order_rounded : ¬ ∃ r r' df df',
    process ⟨(1 : Float), 1, 1, 1, 100, 2⟩ (fun _ => Order.stored) Order.stored roundedSum ∅ = some r ∧
      process ⟨(1 : Float), 1, 1, 1, 100, 2⟩ (fun _ => Order.last 0x0A020001) Order.stored roundedSum ∅ = some r' ∧
      residue ⟨(1 : Float), 1, 1, 1, 100, 2⟩ (fun _ => Order.stored) Order.stored roundedSum ∅ = some df ∧
      residue ⟨(1 : Float), 1, 1, 1, 100, 2⟩ (fun _ => Order.last 0x0A020001) Order.stored roundedSum ∅ = some df' ∧
      RunsAgree "eth0" [] r r' df df' := by
  intro ⟨r, r', df, df', hr, hr', _, _, h⟩
  have hrun : (process ⟨(1 : Float), 1, 1, 1, 100, 2⟩ (fun _ => Order.stored) Order.stored roundedSum ∅).map
      (·.attackerIPNets) = some [uitoin 0x0A020001 uint32Max] := by decide +kernel
  have hrun' : (process ⟨(1 : Float), 1, 1, 1, 100, 2⟩ (fun _ => Order.last 0x0A020001) Order.stored roundedSum ∅).map
      (·.attackerIPNets) = some [] := by decide +kernel
  rw [hr, Option.map_some, Option.some.injEq] at hrun
  rw [hr', Option.map_some, Option.some.injEq] at hrun'
  have hin := (h.nets (uitoin 0x0A020001 uint32Max)).mp (by simp [hrun])
  rw [hrun'] at hin
  exact List.not_mem_nil hin

end SndAttackerIPMergeTask

end Dni
