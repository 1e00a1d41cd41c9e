import Dni.IPNetDelete

namespace Dni

open GoMap

/-- The orders in which one run ranges over the maps of both sets, and over the single addresses in each Add. -/
structure MergeOrders where
  a : Order IPNet Unit
  b : Order IPNet Unit
  add : Nat → Order IPNet Unit

/-- Need to delete element: the loop over the members of `a`. -/
def shrinkLoop (limit : Nat) : List IPNet → IPNetSet → Nat → Option IPNetSet
  | [], a, _ => some a
  | ip :: ips, a, l =>
    (a.delete [ip]).bind fun a => if l - 1 = limit then some a else shrinkLoop limit ips a (l - 1)

/-- Add element until to limit: the loop over the members of `b`. -/
def growLoop (limit : Nat) (ord : Nat → Order IPNet Unit) : List IPNet → IPNetSet → Nat → Option IPNetSet
  | [], a, _ => some a
  | ip :: ips, a, l =>
    (a.add (ord l) ip).bind fun r => if l + 1 = limit then some r.1 else growLoop limit ord ips r.1 (l + 1)

def mergeIPNetSet (o : MergeOrders) (a b : IPNetSet) (limit : Nat) : Option IPNetSet :=
  if b.size = 0 then some a
  else if limit < b.size then none
  else
    let l := a.size
    if limit < l then shrinkLoop limit (o.a.keys a.inets) a l
    else if l = limit then some a
    else growLoop limit o.add (o.b.keys b.inets) a l

/-- A member of the containment-reduced union: no other member of either set contains it. -/
structure Maximal (a b : IPNetSet) (n : IPNet) : Prop where
  mem : n ∈ a.inets ∨ n ∈ b.inets
  widest : ∀ m, m ∈ a.inets ∨ m ∈ b.inets → n.Within m → m = n

/-- The containment-reduced union has at most `limit` members. -/
def UnionFits (a b : IPNetSet) (limit : Nat) : Prop :=
  ∃ l : List IPNet, l.length ≤ limit ∧ ∀ n, Maximal a b n → n ∈ l

/-- What merging two sets within a limit should give. -/
structure MergedRight (a b : IPNetSet) (limit : Nat) (c : IPNetSet) : Prop where
  size : c.size ≤ limit
  sound : ∀ x, c.Covers x → a.Covers x ∨ b.Covers x
  exact : UnionFits a b limit → ∀ x, c.Covers x ↔ a.Covers x ∨ b.Covers x

theorem size_eq (i : IPNetSet) : i.size = i.inets.keys.length := by
  rw [IPNetSet.size, AList.keys, List.keys, List.length_map]

theorem size_le_of_mem {i : IPNetSet} {l : List IPNet} (h : ∀ m ∈ i.inets, m ∈ l) : i.size ≤ l.length := by
  rw [size_eq]
  exact (i.inets.nodupKeys.subperm fun m hm => h m hm).length_le

namespace Represents

theorem delete_one {i : IPNetSet} {ms : List IPNet} (h : Represents i ms) {n : IPNet} (hn : n ∈ i.inets) :
    ∃ i' ms', i.delete [n] = some i' ∧ Represents i' ms' ∧ ∀ m, m ∈ i'.inets ↔ m ∈ i.inets ∧ m ≠ n := by
  obtain ⟨i', ms', hi', hrep, hmem⟩ := h.delete_spec [n]
  refine ⟨i', ms', hi', hrep, ?_⟩
  intro m
  have hreached : reached i.inets [n] = [n] := if_pos hn
  rw [hmem, hreached, List.mem_singleton]

/-- The loop that deletes stops once `limit` members are left. -/
theorem shrinkLoop_spec {limit : Nat} {ips : List IPNet} {a : IPNetSet} {ms : List IPNet} {l : Nat}
    (h : Represents a ms) (hnd : ips.Nodup) (hmem : ∀ m ∈ ips, m ∈ a.inets) (hl : limit < l)
    (hlen : l ≤ limit + ips.length) : ∃ c ms', shrinkLoop limit ips a l = some c ∧ Represents c ms' ∧
      ∀ m, m ∈ c.inets ↔ m ∈ a.inets ∧ m ∉ ips.take (l - limit) := by
  induction ips generalizing a ms l with
  | nil =>
    rw [List.length_nil] at hlen
    omega
  | cons ip ips ih =>
    obtain ⟨hout, hnd'⟩ := List.nodup_cons.mp hnd
    obtain ⟨a', ms', ha', hrep, ha'mem⟩ := h.delete_one (hmem ip List.mem_cons_self)
    rw [shrinkLoop, ha', Option.bind_some]
    split
    next hlast =>
      refine ⟨a', ms', rfl, hrep, ?_⟩
      intro m
      rw [ha'mem, show l - limit = 1 by omega, List.take_succ_cons, List.take_zero, List.mem_singleton]
    next hmore =>
      rw [List.length_cons] at hlen
      obtain ⟨c, ms'', hc, hrep', hcmem⟩ := ih (l := l - 1) hrep hnd' (by
        intro m hm
        rw [ha'mem]
        refine ⟨hmem m (List.mem_cons_of_mem _ hm), ?_⟩
        intro he
        exact hout (he ▸ hm)) (by omega) (by omega)
      refine ⟨c, ms'', hc, hrep', ?_⟩
      intro m
      rw [hcmem, ha'mem, show l - limit = (l - 1 - limit) + 1 by omega, List.take_succ_cons, List.mem_cons]
      tauto

theorem add_one {i : IPNetSet} {ms : List IPNet} (h : Represents i ms) {n : IPNet} (hn : n.Canonical)
    (ord : Order IPNet Unit) : ∃ r ms', i.add ord n = some r ∧ Represents r.1 ms' ∧ r.1.size ≤ i.size + 1 ∧
      ∀ x, r.1.Covers x ↔ i.Covers x ∨ n.Covers x := by
  have hadd := h.add_spec hn ord
  generalize i.add ord n = out at hadd
  cases hadd with
  | @skip m hm hw =>
    refine ⟨_, ms, rfl, h, Nat.le_succ _, ?_⟩
    intro x
    exact (or_iff_left_of_imp fun hx => ⟨m, hm, hw x hx⟩).symm
  | @done i' ms' del hout hrep hinets hnodup hdel =>
    refine ⟨_, ms', rfl, hrep, ?_, covers_of_inets hinets⟩
    have hle : i'.size ≤ (n :: i.inets.keys).length := by
      apply size_le_of_mem
      intro m hm
      rw [List.mem_cons]
      exact ((hinets m).mp hm).imp_right fun hold => hold.1
    rwa [List.length_cons, ← size_eq] at hle

/-- The loop that adds covers what the set and the added nets cover, with one member more for each at most. -/
theorem growLoop_spec {limit : Nat} (ord : Nat → Order IPNet Unit) {ips : List IPNet} {a : IPNetSet}
    {ms : List IPNet} {l : Nat} (h : Represents a ms) (hcanon : ∀ m ∈ ips, m.Canonical) (hl : l < limit) :
    ∃ c ms', growLoop limit ord ips a l = some c ∧ Represents c ms' ∧
      c.size ≤ a.size + (limit - l) ∧
      ∀ x, c.Covers x ↔ a.Covers x ∨ ∃ m ∈ ips.take (limit - l), m.Covers x := by
  induction ips generalizing a ms l with
  | nil => exact ⟨a, ms, rfl, h, Nat.le_add_right _ _, by simp⟩
  | cons ip ips ih =>
    obtain ⟨r, ms', hr, hrep, hsize, hcov⟩ := h.add_one (hcanon ip List.mem_cons_self) (ord l)
    rw [growLoop, hr, Option.bind_some]
    split
    next hlast =>
      refine ⟨r.1, ms', rfl, hrep, by omega, ?_⟩
      intro x
      rw [hcov, show limit - l = 1 by omega, List.take_succ_cons, List.take_zero]
      simp
    next hmore =>
      obtain ⟨c, ms'', hc, hrep', hsize', hcov'⟩ := ih (l := l + 1) hrep
        (fun m hm => hcanon m (List.mem_cons_of_mem _ hm)) (by omega)
      refine ⟨c, ms'', hc, hrep', by omega, ?_⟩
      intro x
      rw [hcov', hcov, show limit - l = (limit - (l + 1)) + 1 by omega, List.take_succ_cons,
        List.exists_mem_cons_iff, or_assoc]

/-- A member that is left out takes its addresses with it. -/
theorem not_covered {i i' : IPNetSet} {ms : List IPNet} (h : Represents i ms) {n : IPNet} (hn : n ∈ i.inets)
    (hout : n ∉ i'.inets) (hsub : ∀ m ∈ i'.inets, m ∈ i.inets) : ∃ x, n.Covers x ∧ ¬ i'.Covers x := by
  refine ⟨n.ipAddr, rfl, ?_⟩
  intro ⟨m, hm, hx⟩
  have hmi := hsub m hm
  have hm' := h.canonical m hmi
  have hn' := h.canonical n hn
  have hxm := (hm'.covers_iff n.ipAddr).mp hx
  have hxn := (hn'.covers_iff n.ipAddr).mp rfl
  obtain hbefore | hafter | hnested | hnested := hm'.apart_or_nested hn'
  · omega
  · omega
  · have he := h.antichain m hmi n hn ((hn'.within_iff m).mpr hnested)
    exact hout (he ▸ hm)
  · have he := h.antichain n hn m hmi ((hm'.within_iff n).mpr hnested)
    exact hout (he ▸ hm)

end Represents

/-- The run ends in a set that is right. -/
def MergesRight (o : MergeOrders) (a b : IPNetSet) (limit : Nat) : Prop :=
  ∃ c, mergeIPNetSet o a b limit = some c ∧ MergedRight a b limit c

/-- `b` is empty and `a` fits; or `b` fits, and if the reduced union fits too, then `a` does and, with the
members of `b` that there is room for, covers the others. -/
def MergeFits (o : MergeOrders) (a b : IPNetSet) (limit : Nat) : Prop :=
  b.size = 0 ∧ a.size ≤ limit ∨
    b.size ≠ 0 ∧ b.size ≤ limit ∧ (UnionFits a b limit → a.size ≤ limit ∧
      ∀ n ∈ (o.b.keys b.inets).drop (limit - a.size), ∀ x, n.Covers x →
        a.Covers x ∨ ∃ m ∈ (o.b.keys b.inets).take (limit - a.size), m.Covers x)

theorem covers_keys (o : Order IPNet Unit) (b : IPNetSet) (k : Nat) (x : UInt32) : b.Covers x ↔
    (∃ m ∈ (o.keys b.inets).take k, m.Covers x) ∨ ∃ m ∈ (o.keys b.inets).drop k, m.Covers x := by
  have hmem : ∀ m, m ∈ b.inets ↔ m ∈ (o.keys b.inets).take k ∨ m ∈ (o.keys b.inets).drop k := by
    intro m
    rw [← List.mem_append, List.take_append_drop, Order.mem_keys]
  simp only [IPNetSet.Covers, hmem, or_and_right, exists_or]

/-- Without room for all of `a`, members are deleted until the rest fits. -/
theorem merge_shrinks {a b : IPNetSet} {ms : List IPNet} (hrep : Represents a ms) (o : MergeOrders) {limit : Nat}
    (hb : b.size ≠ 0) (hbl : b.size ≤ limit) (hal : limit < a.size) :
    ∃ c, mergeIPNetSet o a b limit = some c ∧ c.size ≤ limit ∧ (∀ m ∈ c.inets, m ∈ a.inets) ∧
      ∃ n ∈ a.inets, n ∉ c.inets := by
  have hkeys : (o.a.keys a.inets).length = a.size := by rw [size_eq, (o.a.keys_perm a.inets).length_eq]
  obtain ⟨c, ms', hc, hrep', hmem⟩ := hrep.shrinkLoop_spec (o.a.keys_nodup a.inets)
    (fun m hm => (o.a.mem_keys a.inets).mp hm) hal (by omega)
  refine ⟨c, ?_, ?_, fun m hm => ((hmem m).mp hm).1, ?_⟩
  · rw [mergeIPNetSet, if_neg hb, if_neg (by omega)]
    exact (if_pos hal).trans hc
  · have hle : c.size ≤ ((o.a.keys a.inets).drop (a.size - limit)).length := by
      apply size_le_of_mem
      intro m hm
      obtain ⟨hin, hout⟩ := (hmem m).mp hm
      have hsplit : m ∈ (o.a.keys a.inets).take (a.size - limit) ++ (o.a.keys a.inets).drop (a.size - limit) := by
        rw [List.take_append_drop, Order.mem_keys]
        exact hin
      exact (List.mem_append.mp hsplit).resolve_left hout
    rw [List.length_drop, hkeys] at hle
    omega
  · have hne : (o.a.keys a.inets).take (a.size - limit) ≠ [] := by
      intro hnil
      have hlen := congrArg List.length hnil
      rw [List.length_take, List.length_nil, hkeys] at hlen
      omega
    obtain ⟨n, hn⟩ := List.exists_mem_of_ne_nil _ hne
    exact ⟨n, (o.a.mem_keys a.inets).mp (List.mem_of_mem_take hn), fun hin => ((hmem n).mp hin).2 hn⟩

/-- With room for all of `a`, members of `b` are added until the room is used up. -/
theorem merge_grows {a b : IPNetSet} {ms ns : List IPNet} (hrep : Represents a ms) (hrepb : Represents b ns)
    (o : MergeOrders) {limit : Nat} (hb : b.size ≠ 0) (hbl : b.size ≤ limit) (hal : a.size ≤ limit) :
    ∃ c, mergeIPNetSet o a b limit = some c ∧ c.size ≤ limit ∧
      ∀ x, c.Covers x ↔ a.Covers x ∨ ∃ m ∈ (o.b.keys b.inets).take (limit - a.size), m.Covers x := by
  unfold mergeIPNetSet
  dsimp only
  rw [if_neg hb, if_neg (Nat.not_lt.mpr hbl), if_neg (Nat.not_lt.mpr hal)]
  split
  next heq => exact ⟨a, rfl, hal, by simp [heq]⟩
  next hne =>
    have hcanon : ∀ m ∈ o.b.keys b.inets, m.Canonical := by
      intro m hm
      exact hrepb.canonical m ((o.b.mem_keys b.inets).mp hm)
    obtain ⟨c, ms', hc, hrep', hsize, hcov⟩ := hrep.growLoop_spec o.add hcanon (Nat.lt_of_le_of_ne hal hne)
    exact ⟨c, hc, by omega, hcov⟩

section Right

variable {a b : IPNetSet} {ms ns : List IPNet} (o : MergeOrders) {limit : Nat}

theorem mergesRight_of_empty (hb0 : b.size = 0) : MergesRight o a b limit ↔ MergeFits o a b limit := by
  have hrun : mergeIPNetSet o a b limit = some a := if_pos hb0
  have hnone : ∀ x, ¬ b.Covers x := by
    rintro x ⟨m, hm, _⟩
    exact (empty_iff b).mp (by rw [IPNetSet.empty, hb0]; rfl) m hm
  apply Iff.intro
  · intro h
    rcases h with ⟨c, hc, hright⟩
    cases hrun.symm.trans hc
    exact Or.inl ⟨hb0, hright.size⟩
  · intro h
    obtain ⟨_, hfits⟩ | ⟨hne, _⟩ := h
    · refine ⟨a, hrun, hfits, fun x hx => Or.inl hx, ?_⟩
      intro _ x
      exact (or_iff_left (hnone x)).symm
    · exact absurd hb0 hne

/-- Adding the members of `b` is right where those that are left out bring nothing new. -/
theorem mergesRight_of_grows (hrep : Represents a ms) (hrepb : Represents b ns) (hb0 : b.size ≠ 0)
    (hbl : b.size ≤ limit) (hal : a.size ≤ limit) : MergesRight o a b limit ↔ MergeFits o a b limit := by
  obtain ⟨c, hc, hsize, hcov⟩ := merge_grows hrep hrepb o hb0 hbl hal
  have hrest := covers_keys o.b b (limit - a.size)
  apply Iff.intro
  · intro ⟨c', hc', hright⟩
    cases hc.symm.trans hc'
    refine Or.inr ⟨hb0, hbl, fun hfits => ⟨hal, ?_⟩⟩
    intro n hn x hx
    exact (hcov x).mp ((hright.exact hfits x).mpr (Or.inr ((hrest x).mpr (Or.inr ⟨n, hn, hx⟩))))
  · intro h
    obtain ⟨hzero, _⟩ | ⟨_, _, hexact⟩ := h
    · exact absurd hzero hb0
    · have hsound : ∀ x, c.Covers x → a.Covers x ∨ b.Covers x := by
        intro x hx
        exact ((hcov x).mp hx).imp_right fun htaken => (hrest x).mpr (Or.inl htaken)
      refine ⟨c, hc, hsize, hsound, ?_⟩
      intro hfits x
      apply Iff.intro (hsound x)
      intro hx
      rw [hcov]
      obtain hax | hbx := hx
      · exact Or.inl hax
      · obtain htaken | ⟨n, hn, hnx⟩ := (hrest x).mp hbx
        · exact Or.inr htaken
        · exact (hexact hfits).2 n hn x hnx

/-- Removing members of `a` is never right when the union would fit. -/
theorem mergesRight_of_shrinks (hrep : Represents a ms) (hb0 : b.size ≠ 0) (hbl : b.size ≤ limit)
    (hal : ¬ a.size ≤ limit) : MergesRight o a b limit ↔ MergeFits o a b limit := by
  obtain ⟨c, hc, hsize, hsub, n, hn, hout⟩ := merge_shrinks hrep o hb0 hbl (Nat.not_le.mp hal)
  obtain ⟨x, hnx, hcx⟩ := hrep.not_covered hn hout hsub
  apply Iff.intro
  · intro ⟨c', hc', hright⟩
    cases hc.symm.trans hc'
    refine Or.inr ⟨hb0, hbl, fun hfits => ?_⟩
    exact absurd ((hright.exact hfits x).mpr (Or.inl ⟨n, hn, hnx⟩)) hcx
  · intro h
    obtain ⟨hzero, _⟩ | ⟨_, _, hexact⟩ := h
    · exact absurd hzero hb0
    · refine ⟨c, hc, hsize, fun y ⟨m, hm, hy⟩ => Or.inl ⟨m, hsub m hm, hy⟩, ?_⟩
      intro hfits
      exact absurd (hexact hfits).1 hal

end Right

/-- Merging two sets gives what it should exactly on the sets that fit. -/
theorem mergeIPNetSet_right_iff {a b : IPNetSet} (ha : Reachable a) (hb : Reachable b) (o : MergeOrders)
    (limit : Nat) : MergesRight o a b limit ↔ MergeFits o a b limit := by
  obtain ⟨ms, hrep⟩ := ha.represents
  obtain ⟨ns, hrepb⟩ := hb.represents
  by_cases hb0 : b.size = 0
  · exact mergesRight_of_empty o hb0
  · by_cases hbl : b.size ≤ limit
    · by_cases hal : a.size ≤ limit
      · exact mergesRight_of_grows o hrep hrepb hb0 hbl hal
      · exact mergesRight_of_shrinks o hrep hb0 hbl hal
    · have hrun : mergeIPNetSet o a b limit = none := (if_neg hb0).trans (if_pos (Nat.not_le.mp hbl))
      apply iff_of_false
      · intro ⟨c, hc, _⟩
        rw [hrun] at hc
        cases hc
      · intro h
        obtain ⟨hzero, _⟩ | ⟨_, hle, _⟩ := h
        · exact hb0 hzero
        · exact hbl hle

def storedOrders : MergeOrders := ⟨Order.stored, Order.stored, fun _ => Order.stored⟩

theorem mergeIPNetSet_right_iff_oneAddress :
    MergesRight storedOrders oneAddress newIPNetSet 1 ↔ MergeFits storedOrders oneAddress newIPNetSet 1 :=
  mergeIPNetSet_right_iff oneAddress_reachable newIPNetSet_reachable storedOrders 1

/-- The address of `oneAddress` and one more. -/
def twoAddresses : IPNetSet :=
  ⟨((∅ : GoMap IPNet Unit).insert ⟨0x0A000002, uint32Max⟩ ()).insert ⟨0x0A000001, uint32Max⟩ (),
    ((∅ : GoMap IPNet Unit).insert ⟨0x0A000002, uint32Max⟩ ()).insert ⟨0x0A000001, uint32Max⟩ (), []⟩

theorem twoAddresses_reachable : Reachable twoAddresses := by
  refine ⟨[.add Order.stored ⟨0x0A000002, uint32Max⟩, .add Order.stored ⟨0x0A000001, uint32Max⟩], ?_, by rfl⟩
  intro op hop
  rw [List.mem_cons, List.mem_singleton] at hop
  obtain hop | hop := hop
  · rw [hop]
    exact single_canonical _
  · rw [hop]
    exact single_canonical _

/-- Adding the address that is there already uses up the room for the other one. -/
theorem merge_drops : Reachable oneAddress ∧ Reachable twoAddresses ∧ UnionFits oneAddress twoAddresses 2 ∧
    ¬ MergesRight storedOrders oneAddress twoAddresses 2 := by
  have hfits : UnionFits oneAddress twoAddresses 2 := by
    refine ⟨[⟨0x0A000001, uint32Max⟩, ⟨0x0A000002, uint32Max⟩], le_rfl, ?_⟩
    intro n hn
    obtain hn | hn := hn.mem
    · exact List.mem_cons.mpr (Or.inl (List.mem_singleton.mp hn))
    · exact hn
  refine ⟨oneAddress_reachable, twoAddresses_reachable, hfits, ?_⟩
  intro ⟨c, hc, hright⟩
  have hrun : (mergeIPNetSet storedOrders oneAddress twoAddresses 2).map (fun c => c.inets.keys) =
      some [⟨0x0A000001, uint32Max⟩] := by decide
  rw [hc, Option.map_some, Option.some.injEq] at hrun
  obtain ⟨m, hm, hx⟩ := (hright.exact hfits 0x0A000002).mpr
    (Or.inr ⟨⟨0x0A000002, uint32Max⟩, by decide, rfl⟩)
  have hone : m = ⟨0x0A000001, uint32Max⟩ := by
    have hkeys : m ∈ c.inets.keys := hm
    rw [hrun] at hkeys
    exact List.mem_singleton.mp hkeys
  subst hone
  have hdiff : (0x0A000002 : UInt32) &&& uint32Max ≠ 0x0A000001 &&& uint32Max := by decide
  exact hdiff hx

end Dni
