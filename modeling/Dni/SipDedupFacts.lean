import Dni.SipDedupTask
import Dni.SipDedupStats

namespace Dni

open GoMap Sieve

section Groups

variable (hostNicSign : String) (attakIPNets : List NetIPNet) (isRand : Bool) (ipCountDF4 : IPCount)

/-- The packets of a group, with their indices. -/
theorem attributions_filter (pinfos : List PacketInfo) (key : String) :
    ((attributions attakIPNets isRand ipCountDF4 pinfos).filter (·.1 = key)).map Prod.snd =
      pinfos.zipIdx.filter fun p => key ∈ sourcesOf attakIPNets isRand ipCountDF4 p.1 := by
  have hone : ∀ (keys : List String) (p : PacketInfo × Nat), keys.Nodup →
      ((keys.map (·, p)).filter (·.1 = key)).map Prod.snd = if key ∈ keys then [p] else [] := by
    intro keys p hnd
    rw [List.filter_map, List.map_map]
    have hcomp : Prod.snd ∘ ((·, p) : String → String × PacketInfo × Nat) = fun _ => p := rfl
    have hfilter : keys.filter ((fun e : String × PacketInfo × Nat => decide (e.1 = key)) ∘ (·, p)) =
        keys.filter (· = key) := rfl
    rw [hcomp, hfilter, List.filter_eq, List.map_replicate, hnd.count]
    split <;> rfl
  unfold attributions
  induction pinfos.zipIdx with
  | nil => rfl
  | cons p ps ih =>
    rw [List.flatMap_cons, List.filter_append, List.map_append, ih,
      hone _ p (sourcesOf_nodup attakIPNets isRand ipCountDF4 p.1), List.filter_cons]
    split <;> simp_all

/-- What the merges of some packets leave in a group. -/
theorem merge_fields (es : List (String × PacketInfo × Nat)) (g : SIPBaseMergedStat) (x : UInt32) :
    (x ∈ (es.foldl (fun g e => g.merge hostNicSign e.1 e.2.2 e.2.1) g).sport ↔
      x ∈ g.sport ∨ x ∈ (es.map fun e => e.2.1).map fun info => info.field "SPort") ∧
    (x ∈ (es.foldl (fun g e => g.merge hostNicSign e.1 e.2.2 e.2.1) g).dport ↔
      x ∈ g.dport ∨ x ∈ (es.map fun e => e.2.1).map fun info => info.field "DPort") ∧
    (x ∈ (es.foldl (fun g e => g.merge hostNicSign e.1 e.2.2 e.2.1) g).length ↔
      x ∈ g.length ∨ x ∈ (es.map fun e => e.2.1).map fun info => info.field "Length") := by
  have hmove : ∀ a b c : Prop, (a ∨ b) ∨ c ↔ b ∨ a ∨ c := fun a b c => by rw [or_comm (a := a), or_assoc]
  induction es generalizing g with
  | nil => simp
  | cons e es ih =>
    obtain ⟨hs, hd, hl⟩ := ih (g.merge hostNicSign e.1 e.2.2 e.2.1)
    rw [List.foldl_cons, hs, hd, hl]
    simp only [SIPBaseMergedStat.merge, increment, AList.mem_insert, List.map_cons, List.mem_cons, hmove,
      and_self]

theorem merge_names (key : String) (es : List (String × PacketInfo × Nat)) (hes : ∀ e ∈ es, e.1 = key)
    (hne : es ≠ []) (g : SIPBaseMergedStat) :
    (es.foldl (fun g e => g.merge hostNicSign e.1 e.2.2 e.2.1) g).sip = key ∧
      (es.foldl (fun g e => g.merge hostNicSign e.1 e.2.2 e.2.1) g).hostNicSign = hostNicSign := by
  obtain ⟨front, e, he⟩ := (List.eq_nil_or_concat' es).resolve_left hne
  subst he
  rw [List.foldl_append]
  exact ⟨hes e (by simp), rfl⟩

/-- A source group as the packets of the table make it. -/
structure SIPBaseMergedStat.Of (g : SIPBaseMergedStat) (key : String) (infos : List PacketInfo) : Prop where
  sip : g.sip = key
  hostNicSign : g.hostNicSign = hostNicSign
  counts : g.Counts
  size : g.ipIdxs.length = infos.length
  sport : ∀ x, x ∈ g.sport ↔ x ∈ infos.map fun info => info.field "SPort"
  dport : ∀ x, x ∈ g.dport ↔ x ∈ infos.map fun info => info.field "DPort"
  length : ∀ x, x ∈ g.length ↔ x ∈ infos.map fun info => info.field "Length"

theorem group_of_lookup {pinfos : List PacketInfo} {key : String} {g : SIPBaseMergedStat}
    (h : (sipBaseMerge hostNicSign attakIPNets isRand ipCountDF4 pinfos).lookup key = some g) :
    g.Of hostNicSign key
      (pinfos.filter fun info => key ∈ sourcesOf attakIPNets isRand ipCountDF4 info) := by
  obtain ⟨hcounts, hidx⟩ := lookup_sipBaseMerge hostNicSign attakIPNets isRand ipCountDF4 h
  obtain ⟨es, hes⟩ : ∃ es, es = (attributions attakIPNets isRand ipCountDF4 pinfos).filter (·.1 = key) :=
    ⟨_, rfl⟩
  have hfold : es ≠ [] ∧ es.foldl (fun g e => g.merge hostNicSign e.1 e.2.2 e.2.1) {} = g := by
    rw [sipBaseMerge_eq, lookup_accumulate, ← hes] at h
    split at h
    next hex =>
      obtain ⟨e, he, hk⟩ := hex
      have hmem : e ∈ es := by
        rw [hes]
        exact List.mem_filter.mpr ⟨he, decide_eq_true hk⟩
      rw [AList.lookup_empty, Option.getD_none, Option.some.injEq] at h
      exact ⟨List.ne_nil_of_mem hmem, h⟩
    next => cases h
  have hkeys : ∀ e ∈ es, e.1 = key := by
    intro e he
    rw [hes] at he
    exact of_decide_eq_true (List.mem_filter.mp he).2
  have hinfos : es.map (fun e => e.2.1) =
      pinfos.filter fun info => key ∈ sourcesOf attakIPNets isRand ipCountDF4 info := by
    have hsnd := attributions_filter attakIPNets isRand ipCountDF4 pinfos key
    rw [← hes] at hsnd
    have hfst : es.map (fun e => e.2.1) = (es.map Prod.snd).map Prod.fst := by
      rw [List.map_map]
      rfl
    have hfilter : (pinfos.zipIdx.map Prod.fst).filter
        (fun info => key ∈ sourcesOf attakIPNets isRand ipCountDF4 info) =
          (pinfos.zipIdx.filter fun p => key ∈ sourcesOf attakIPNets isRand ipCountDF4 p.1).map Prod.fst :=
      List.filter_map
    rw [hfst, hsnd, ← hfilter, List.zipIdx_map_fst]
  obtain ⟨hsip, hnic⟩ := merge_names hostNicSign key es hkeys hfold.1 {}
  have hfields := merge_fields hostNicSign es {}
  rw [hfold.2] at hsip hnic hfields
  have hnot : ∀ x : UInt32, ¬ x ∈ (∅ : IPCount) := fun x => AList.notMem_empty x
  simp only [hinfos] at hfields
  refine ⟨hsip, hnic, hcounts, ?_, fun x => ?_, fun x => ?_, fun x => ?_⟩
  · rw [hidx, ← hes, List.length_map, ← hinfos, List.length_map]
  · exact (hfields x).1.trans (or_iff_right (hnot x))
  · exact (hfields x).2.1.trans (or_iff_right (hnot x))
  · exact (hfields x).2.2.trans (or_iff_right (hnot x))

end Groups

section Labels

variable {F : Type} [FloatArith F]

theorem foldl_add_eq_mass (es : List (UInt32 × Int)) (c : Int) :
    es.foldl (fun c e => c + e.2) c = c + mass es := by
  induction es generalizing c with
  | nil => simp [mass]
  | cons e es ih =>
    rw [List.foldl_cons, ih]
    simp only [mass, List.map_cons, List.sum_cons]
    omega

/-- The score of a feature, from its values in the packets of a group. -/
def NumberThreshLabels.scoreOf (t : NumberThreshLabels F) (vals : List UInt32) : Nat :=
  if (vals.dedup.length : Int) < t.keyLenThreshold then 0
  else if (diffTypeNum vals.dedup : Int) ≤ FloatArith.toInt (FloatArith.mul (FloatArith.ofInt vals.length) t.ratioMin) then 1
  else if FloatArith.toInt (FloatArith.mul (FloatArith.ofInt vals.length) t.ratioMax) ≤ (diffTypeNum vals.dedup : Int) then 2
  else 3

def NumberThreshLabels.labelOf (t : NumberThreshLabels F) (vals : List UInt32) : String :=
  (t.labels[t.scoreOf vals]?).getD ""

theorem NumberThreshLabels.scoreOf_lt (t : NumberThreshLabels F) (vals : List UInt32) : t.scoreOf vals < 4 := by
  unfold scoreOf
  split
  next => omega
  next =>
    split
    next => omega
    next => split <;> omega

theorem getNumStatisticScore_eq (ord : Order UInt32 Int) (t : NumberThreshLabels F) {m : IPCount}
    {vals : List UInt32} (hm : ∀ x, x ∈ m ↔ x ∈ vals) (hmass : mass (pairs m) = vals.length) :
    getNumStatisticScore ord m t.keyLenThreshold t.ratioMin t.ratioMax = t.scoreOf vals := by
  have hkeys := keys_perm_dedup hm
  have hsum : (ord.run m).foldl (fun c e => c + e.2) 0 = (vals.length : Int) := by
    rw [foldl_add_eq_mass, mass_perm (ord.perm m), hmass, Int.zero_add]
  rw [getNumStatisticScore, NumberThreshLabels.scoreOf, hsum, hkeys.length_eq,
    diffTypeNum_perm ((ord.keys_perm m).trans hkeys)]

/-- With three scores there is one for every protocol. -/
theorem getProtoStatisticScore_eq {T : Type} (ord : Order UInt32 Int) (m : IPCount) (sum rmin rmax : F)
    {scores : List T} {s : Fin 3 → T} (h : ∀ i : Fin 3, scores[i.val]? = some (s i)) :
    getProtoStatisticScore ord m sum rmin rmax scores = some ((ord.run m).foldl (fun protos e =>
      protos.insert e.1 (if FloatArith.toInt (FloatArith.mul sum rmax) ≤ e.2 then s 0
        else if FloatArith.toInt (FloatArith.mul sum rmin) ≤ e.2 then s 1 else s 2)) ∅) := by
  have h₀ : scores[0]? = some (s 0) := h 0
  have h₁ : scores[1]? = some (s 1) := h 1
  have h₂ : scores[2]? = some (s 2) := h 2
  unfold getProtoStatisticScore
  generalize ord.run m = es
  generalize (∅ : GoMap UInt32 T) = protos
  induction es generalizing protos with
  | nil => rfl
  | cons e es ih =>
    have hstep : (if FloatArith.toInt (FloatArith.mul sum rmax) ≤ e.2 then scores[0]?
        else if FloatArith.toInt (FloatArith.mul sum rmin) ≤ e.2 then scores[1]? else scores[2]?) =
        some (if FloatArith.toInt (FloatArith.mul sum rmax) ≤ e.2 then s 0
          else if FloatArith.toInt (FloatArith.mul sum rmin) ≤ e.2 then s 1 else s 2) := by
      rw [h₀, h₁, h₂]
      split
      next => rfl
      next => split <;> rfl
    rw [List.foldlM_cons, hstep, List.foldl_cons]
    exact ih _

/-- A labelled group as the packets of the table make it. -/
structure LabelledStat.Of (lab : LabelledStat) (t : NumberThreshLabels F) (hostNicSign key : String)
    (infos : List PacketInfo) : Prop where
  sip : lab.stat.sip = key
  hostNicSign : lab.stat.hostNicSign = hostNicSign
  sport : lab.sport = t.labelOf (infos.map fun info => info.field "SPort")
  dport : lab.dport = t.labelOf (infos.map fun info => info.field "DPort")
  length : lab.length = t.labelOf (infos.map fun info => info.field "Length")

/-- The labels that a group gets are those of its packets. -/
theorem of_label {t : SndSIPBaseMergeDedupOptions F} {o : SipDedupOrders} {g : SIPBaseMergedStat}
    {hostNicSign key : String} {infos : List PacketInfo} (h : g.Of hostNicSign key infos) {lab : LabelledStat}
    (hlab : SndSIPBaseMergeDedupTask.label t o g = some lab) :
    lab.stat = g ∧ lab.Of t.numStats hostNicSign key infos := by
  have hlabel : ∀ {m : IPCount} {f : PacketInfo → UInt32} {s : String}, (∀ x, x ∈ m ↔ x ∈ infos.map f) →
      mass (pairs m) = g.ipIdxs.length → SndSIPBaseMergeDedupTask.numLabel t o m = some s →
      s = t.numStats.labelOf (infos.map f) := by
    intro m f s hm hmass hs
    rw [SndSIPBaseMergeDedupTask.numLabel, getNumStatisticScore_eq o.counts t.numStats hm
      (by rw [hmass, h.size, List.length_map])] at hs
    rw [NumberThreshLabels.labelOf, hs, Option.getD_some]
  obtain ⟨sport, hsport, hlab⟩ := Option.bind_eq_some_iff.mp hlab
  obtain ⟨dport, hdport, hlab⟩ := Option.bind_eq_some_iff.mp hlab
  obtain ⟨length, hlength, hlab⟩ := Option.bind_eq_some_iff.mp hlab
  obtain ⟨protos, _, hlab⟩ := Option.bind_eq_some_iff.mp hlab
  cases hlab
  exact ⟨rfl, h.sip, h.hostNicSign, hlabel h.sport h.counts.sport hsport, hlabel h.dport h.counts.dport hdport,
    hlabel h.length h.counts.length hlength⟩

theorem getNumStatisticScore_lt (ord : Order UInt32 Int) (m : IPCount) (condthreshold : Int) (rmin rmax : F) :
    getNumStatisticScore ord m condthreshold rmin rmax < 4 := by
  unfold getNumStatisticScore
  dsimp only
  split
  next => omega
  next =>
    split
    next => omega
    next => split <;> omega

/-- With four labels for numbers and three for protocols no group is without one. -/
theorem exists_label {t : SndSIPBaseMergeDedupOptions F} (o : SipDedupOrders) (hnum : 4 ≤ t.numStats.labels.length)
    (hproto : 3 ≤ t.protoStats.labels.length) (g : SIPBaseMergedStat) :
    ∃ lab, SndSIPBaseMergeDedupTask.label t o g = some lab := by
  have hlabel : ∀ m : IPCount, ∃ s, SndSIPBaseMergeDedupTask.numLabel t o m = some s := by
    intro m
    have hlt := getNumStatisticScore_lt o.counts m t.numStats.keyLenThreshold t.numStats.ratioMin t.numStats.ratioMax
    exact ⟨_, List.getElem?_eq_getElem (by omega)⟩
  obtain ⟨sport, hsport⟩ := hlabel g.sport
  obtain ⟨dport, hdport⟩ := hlabel g.dport
  obtain ⟨length, hlength⟩ := hlabel g.length
  obtain ⟨protos, hp⟩ : ∃ protos, getProtoStatisticScore o.counts g.proto
      (FloatArith.ofInt ((o.counts.run g.proto).foldl (fun c e => c + e.2) 0)) t.protoStats.ratioMin
      t.protoStats.ratioMax t.protoStats.labels = some protos :=
    ⟨_, getProtoStatisticScore_eq o.counts g.proto _ _ _ fun i => List.getElem?_eq_getElem (by omega)⟩
  refine ⟨⟨g, sport, dport, length, protos⟩, ?_⟩
  rw [SndSIPBaseMergeDedupTask.label, hsport, hdport, hlength]
  simp only [hp, Option.bind_eq_bind, Option.bind_some, Option.pure_def]

end Labels

end Dni
