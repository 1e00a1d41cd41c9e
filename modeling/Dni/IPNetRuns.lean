import Dni.IPNetCalls

namespace Dni

open GoMap

theorem eraseAt_eq {α : Type*} (pre : List α) (q : α) (post : List α) :
    (pre ++ q :: post).take pre.length ++ (pre ++ q :: post).drop (pre.length + 1) = pre ++ post := by
  simp [List.drop_append, List.drop_eq_nil_of_le]

/-- The nets that Delete removes: those before the first that is no member, or none any more. -/
def reached (members : GoMap IPNet Unit) : List IPNet → List IPNet
  | [] => []
  | n :: inets => if n ∈ members then n :: reached (members.erase n) inets else []

namespace Represents

/-- The search for a wider member ends at its own range. -/
theorem startIndex_member {i : IPNetSet} {ms : List IPNet} (h : Represents i ms) {n : IPNet}
    (hn : n ∈ ms) : ∃ pre post, ms = pre ++ n :: post ∧ i.startIndex (ipNetToRange n) = pre.length := by
  obtain ⟨pre, post, rfl, hidx, hpre, hpost⟩ := h.listed.startIndex_split h.ranges n
  have hmem : n ∈ post := by
    rcases List.mem_append.mp hn with hm | hm
    · exact absurd (hpre n hm) (lt_irrefl _)
    · exact hm
  obtain ⟨q, post, rfl⟩ := List.exists_cons_of_ne_nil (List.ne_nil_of_mem hmem)
  rcases List.mem_cons.mp hmem with rfl | hm
  · exact ⟨pre, post, rfl, hidx⟩
  · have h1 := (List.pairwise_cons.mp h.listed.right.starts).1 n hm
    have h2 := hpost q (by simp)
    omega

/-- Leaving out one member with its single address or range keeps the three structures in step. -/
theorem remove {i i' : IPNetSet} {ms ms' : List IPNet} {n : IPNet} (h : Represents i ms)
    (hinets : i'.inets = i.inets.erase n) (hsingle : ∀ m, m ∈ i'.single ↔ m ≠ n ∧ m ∈ i.single)
    (hms : ∀ m, m ∈ ms' ↔ m ≠ n ∧ m ∈ ms) (hsub : ms'.Sublist ms)
    (hranges : i'.ranges = ms'.map ipNetToRange) : Represents i' ms' where
  ranges := hranges
  ascending := h.ascending.sublist hsub
  wider m := by rw [hms, h.wider, hinets, AList.mem_erase, and_assoc]
  single m := by rw [hsingle, h.single, hinets, AList.mem_erase, and_assoc]
  canonical m hm := by
    rw [hinets, AList.mem_erase] at hm
    exact h.canonical m hm.2
  antichain a ha b hb := by
    rw [hinets, AList.mem_erase] at ha hb
    exact h.antichain a ha.2 b hb.2

theorem delete_spec {i : IPNetSet} {ms : List IPNet} (h : Represents i ms) (l : List IPNet) :
    ∃ i' ms', i.delete l = some i' ∧ Represents i' ms' ∧
      ∀ m, m ∈ i'.inets ↔ m ∈ i.inets ∧ m ∉ reached i.inets l := by
  induction l generalizing i ms with
  | nil => exact ⟨i, ms, rfl, h, by simp [reached]⟩
  | cons n l ih =>
    unfold IPNetSet.delete
    split
    next hn => exact ⟨i, ms, rfl, h, by simp [reached, hn]⟩
    next hn =>
      rw [not_not] at hn
      have hreached : reached i.inets (n :: l) = n :: reached (i.inets.erase n) l := if_pos hn
      -- what is left of the set after this element, and what the others then leave
      have hstep : ∀ {j : IPNetSet} {js : List IPNet}, Represents j js → j.inets = i.inets.erase n →
          ∃ i' ms', j.delete l = some i' ∧ Represents i' ms' ∧
            ∀ m, m ∈ i'.inets ↔ m ∈ i.inets ∧ m ∉ reached i.inets (n :: l) := by
        intro j js hj hinets
        obtain ⟨i', ms', hi', hrep, hmem⟩ := ih hj
        refine ⟨i', ms', hi', hrep, ?_⟩
        intro m
        rw [hmem, hinets, AList.mem_erase, hreached, List.mem_cons]
        tauto
      split
      next hmask =>
        refine hstep (h.remove rfl (fun m => AList.mem_erase) (fun m => ?_) (List.Sublist.refl ms) h.ranges) rfl
        refine ⟨fun hm => ⟨?_, hm⟩, And.right⟩
        rintro rfl
        exact ((h.wider m).mp hm).2 hmask
      next hmask =>
        obtain ⟨pre, post, rfl, hidx⟩ := h.startIndex_member ((h.wider n).mpr ⟨hn, hmask⟩)
        have hnd : (pre ++ n :: post).Nodup :=
          h.listed.starts.imp fun hlt => by rintro rfl; omega
        rw [hidx]
        simp only [h.ranges, List.length_map, List.length_append, List.length_cons]
        rw [if_pos (by omega)]
        have hcut := eraseAt_eq (pre.map ipNetToRange) (ipNetToRange n) (post.map ipNetToRange)
        rw [List.length_map] at hcut
        refine hstep (show Represents _ (pre ++ post) from
          h.remove rfl (fun m => ?_) (fun m => ?_) (by simp) (by simpa using hcut)) rfl
        · refine ⟨fun hm => ⟨?_, hm⟩, And.right⟩
          rintro rfl
          exact hmask ((h.single m).mp hm).2
        · have h1 := (List.nodup_middle.mp hnd)
          rw [List.nodup_cons] at h1
          rw [List.mem_append, List.mem_append, List.mem_cons]
          constructor
          · intro hm
            refine ⟨?_, by tauto⟩
            rintro rfl
            exact h1.1 (List.mem_append.mpr hm)
          · tauto

theorem apply_spec {i : IPNetSet} {ms : List IPNet} (h : Represents i ms) {op : SetOp}
    (hop : op.Canonical) : ∃ i' ms', op.apply i = some i' ∧ Represents i' ms' := by
  cases op with
  | add ord n =>
    have hadd := h.add_spec hop ord
    change ∃ i' ms', (i.add ord n).map Prod.fst = some i' ∧ Represents i' ms'
    generalize i.add ord n = out at hadd
    cases hadd with
    | skip => exact ⟨i, ms, rfl, h⟩
    | done _ hrep => exact ⟨_, _, rfl, hrep⟩
  | delete l =>
    obtain ⟨i', ms', hi', hrep, _⟩ := h.delete_spec l
    exact ⟨i', ms', hi', hrep⟩
  | clearAll => exact ⟨_, [], rfl, newIPNetSet_represents⟩

theorem runOps_spec {ops : List SetOp} (hops : ∀ op ∈ ops, op.Canonical) {i : IPNetSet}
    {ms : List IPNet} (h : Represents i ms) : ∃ i' ms', runOps ops i = some i' ∧ Represents i' ms' := by
  induction ops generalizing i ms with
  | nil => exact ⟨i, ms, rfl, h⟩
  | cons op ops ih =>
    obtain ⟨i₁, ms₁, h₁, hrep⟩ := h.apply_spec (hops op (by simp))
    obtain ⟨i₂, ms₂, h₂, hrep'⟩ := ih (fun op hop => hops op (by simp [hop])) hrep
    exact ⟨i₂, ms₂, by rw [runOps, List.foldlM_cons, h₁]; exact h₂, hrep'⟩

theorem contains_spec {i : IPNetSet} {ms : List IPNet} (h : Represents i ms) (n : IPNet) :
    i.contains n = true ↔ ∃ m ∈ i.inets, n.Within m := by
  unfold IPNetSet.contains
  split
  next hmem => exact ⟨fun _ => ⟨n, hmem, fun _ ha => ha⟩, fun _ => rfl⟩
  next hmem =>
    have hsought := h.listed.searchNet_spec h.ranges n
    generalize i.searchNet n = out at hsought
    cases hsought with
    | @inside idx c m hm hin hc => exact ⟨fun _ => ⟨m, ((h.wider m).mp hm).1, hin⟩, fun _ => by simpa using hc.symm⟩
    | unrelated _ _ _ hout => simpa using h.outside hmem hout
    | swallows _ _ _ hout => simpa using h.outside hmem hout

/-- The ranges are those of the wider members, one each, apart and ascending. -/
theorem ranges_spec {i : IPNetSet} {ms : List IPNet} (h : Represents i ms) :
    i.ranges.Perm ((i.inets.keys.filter fun n => n.mask ≠ uint32Max).map ipNetToRange) ∧
      i.ranges.Pairwise fun a b => Bytes.compare a.start b.start < 0 ∧
        ∀ x, ¬ (a.contains x = true ∧ b.contains x = true) := by
  have hnd : ms.Nodup := h.listed.starts.imp fun hlt => by rintro rfl; omega
  constructor
  · rw [h.ranges]
    refine List.Perm.map _ ((List.perm_ext_iff_of_nodup hnd (i.inets.nodupKeys.filter _)).mpr fun n => ?_)
    rw [h.wider, List.mem_filter, decide_eq_true_eq]
    rfl
  · rw [h.ranges, List.pairwise_map]
    refine h.ascending.imp_of_mem fun {a b} ha hb hab => ⟨?_, fun x hx => ?_⟩
    · have h1 := a.first_le_last
      have h2 := (start_nonneg_iff a b).not
      omega
    · rw [IPNet.range_contains_iff, IPNet.range_contains_iff] at hx
      omega

theorem startIndex_spec {i : IPNetSet} {ms : List IPNet} (h : Represents i ms) (n : IPNet) {j : Nat}
    {r : Range IP} (hj : i.ranges[j]? = some r) :
    j < i.startIndex (ipNetToRange n) ↔ Bytes.compare r.start (ipNetToRange n).start < 0 := by
  obtain ⟨pre, post, rfl, hidx, hpre, hpost⟩ := h.listed.startIndex_split h.ranges n
  rw [h.ranges, List.getElem?_map] at hj
  obtain ⟨m, hm, rfl⟩ := Option.map_eq_some_iff.mp hj
  have hs := start_nonneg_iff m n
  rw [hidx]
  by_cases hlt : j < pre.length
  · rw [List.getElem?_append_left hlt] at hm
    have := hpre m (List.mem_of_getElem? hm)
    omega
  · rw [List.getElem?_append_right (by omega)] at hm
    have := hpost m (List.mem_of_getElem? hm)
    omega

end Represents

/-- The representation invariant: whatever the calls, no member contains another, `single` holds the
/32 members, and `ranges` holds the others in an order that the binary search splits correctly. -/
theorem runOps_invariant (ops : List SetOp) (h : ∀ op ∈ ops, op.Canonical) :
    ∃ s, runOps ops newIPNetSet = some s ∧
      (∀ m ∈ s.inets, ∀ n ∈ s.inets, m.Within n → m = n) ∧
      (∀ n, n ∈ s.single ↔ n ∈ s.inets ∧ n.mask = uint32Max) ∧
      s.ranges.Perm ((s.inets.keys.filter fun n => n.mask ≠ uint32Max).map ipNetToRange) ∧
      (∀ n ∈ s.inets, ∀ a, (ipNetToRange n).contains a = true ↔ n.Covers a) ∧
      s.ranges.Pairwise (fun a b => Bytes.compare a.start b.start < 0 ∧
        ∀ x, ¬ (a.contains x = true ∧ b.contains x = true)) ∧
      ∀ n j r, s.ranges[j]? = some r →
        (j < s.startIndex (ipNetToRange n) ↔ Bytes.compare r.start (ipNetToRange n).start < 0) := by
  obtain ⟨s, ms, hs, hrep⟩ := newIPNetSet_represents.runOps_spec h
  refine ⟨s, hs, hrep.antichain, hrep.single, hrep.ranges_spec.1, fun n hn a => ?_,
    hrep.ranges_spec.2, fun n j r hj => hrep.startIndex_spec n hj⟩
  rw [IPNet.range_contains_iff, (hrep.canonical n hn).covers_iff]

theorem runOps_invariant_nested :
    ∃ s, runOps [.add Order.stored ⟨0x0A010000, 0xFFFF0000⟩, .add Order.stored ⟨0x0A010203, 0xFFFFFFFF⟩,
        .add Order.stored ⟨0x0A000000, 0xFF000000⟩, .delete [⟨0x0A010000, 0xFFFF0000⟩]] newIPNetSet = some s ∧
      ∀ m ∈ s.inets, ∀ n ∈ s.inets, m.Within n → m = n := by
  obtain ⟨s, hs, hanti, _⟩ := runOps_invariant
    [.add Order.stored ⟨0x0A010000, 0xFFFF0000⟩, .add Order.stored ⟨0x0A010203, 0xFFFFFFFF⟩,
      .add Order.stored ⟨0x0A000000, 0xFF000000⟩, .delete [⟨0x0A010000, 0xFFFF0000⟩]] (by
    intro op hop
    simp only [List.mem_cons, List.not_mem_nil, or_false] at hop
    rcases hop with rfl | rfl | rfl | rfl
    · exact ⟨⟨16, by decide, by decide⟩, by decide⟩
    · exact ⟨⟨0, by decide, by decide⟩, by decide⟩
    · exact ⟨⟨24, by decide, by decide⟩, by decide⟩
    · intro n hn
      rw [List.mem_singleton.mp hn]
      exact ⟨⟨16, by decide, by decide⟩, by decide⟩)
  exact ⟨s, hs, hanti⟩

def IPNetSet.Covers (i : IPNetSet) (a : UInt32) : Prop := ∃ m ∈ i.inets, m.Covers a

/-- Once a net was added, its addresses are covered along with the old ones. -/
theorem covers_of_inets {i i' : IPNetSet} {n : IPNet}
    (hinets : ∀ m, m ∈ i'.inets ↔ m = n ∨ m ∈ i.inets ∧ ¬ m.Within n) (a : UInt32) :
    i'.Covers a ↔ i.Covers a ∨ n.Covers a := by
  apply Iff.intro
  · intro ⟨m, hm, ha⟩
    obtain hmn | ⟨hm, _⟩ := (hinets m).mp hm
    · exact Or.inr (hmn ▸ ha)
    · exact Or.inl ⟨m, hm, ha⟩
  · intro h
    obtain ⟨m, hm, ha⟩ | ha := h
    · by_cases hw : m.Within n
      · exact ⟨n, (hinets n).mpr (Or.inl rfl), hw a ha⟩
      · exact ⟨m, (hinets m).mpr (Or.inr ⟨hm, hw⟩), ha⟩
    · exact ⟨n, (hinets n).mpr (Or.inl rfl), ha⟩

/-- Add unites the covered addresses, returns the swallowed members and reports whether it inserted;
Contains tells whether one member contains the net. -/
theorem add_contains_correct (ops : List SetOp) (h : ∀ op ∈ ops, op.Canonical) (s : IPNetSet)
    (hs : runOps ops newIPNetSet = some s) (ord : Order IPNet Unit) (n : IPNet) (hn : n.Canonical) :
    (∃ s' del ok, s.add ord n = some (s', del, ok) ∧
      (∀ a, s'.Covers a ↔ s.Covers a ∨ n.Covers a) ∧
      (del.Nodup ∧ ∀ m, m ∈ del ↔ m ∈ s.inets ∧ m.Within n ∧ m ≠ n) ∧
      (ok = true ↔ ¬ ∃ m ∈ s.inets, n.Within m) ∧ (ok = false → s' = s)) ∧
    (s.contains n = true ↔ ∃ m ∈ s.inets, n.Within m) := by
  obtain ⟨s₀, ms, hs₀, hrep⟩ := newIPNetSet_represents.runOps_spec h
  obtain rfl : s₀ = s := Option.some.inj (hs₀.symm.trans hs)
  refine ⟨?_, hrep.contains_spec n⟩
  have hadd := hrep.add_spec hn ord
  generalize s₀.add ord n = out at hadd
  cases hadd with
  | @skip m hm hw =>
    refine ⟨s₀, [], false, rfl, fun a => ?_, ⟨List.nodup_nil, fun x => ?_⟩, ?_, fun _ => rfl⟩
    · refine ⟨Or.inl, fun ha => ha.elim id fun hna => ⟨m, hm, hw a hna⟩⟩
    · simp only [List.not_mem_nil, false_iff, not_and, not_not]
      intro hx hxn
      have hxm := hrep.antichain x hx m hm fun a ha => hw a (hxn a ha)
      subst hxm
      exact (hrep.canonical x hx).eq_of_within hn hxn hw
    · simpa using ⟨m, hm, hw⟩
  | @done s' ms' del hout hrep' hinets hnodup hdel =>
    refine ⟨s', del, true, rfl, covers_of_inets hinets, ⟨hnodup, fun x => ?_⟩, ?_, by simp⟩
    · rw [hdel]
      refine ⟨fun hx => ⟨hx.1, hx.2, ?_⟩, fun hx => ⟨hx.1, hx.2.1⟩⟩
      rintro rfl
      exact hout x hx.1 hx.2
    · simpa using hout

theorem add_contains_correct_swallow :
    ∃ s, runOps [.add Order.stored ⟨0x0A010203, 0xFFFFFFFF⟩] newIPNetSet = some s ∧
      ∃ s' del ok, s.add Order.stored ⟨0x0A000000, 0xFF000000⟩ = some (s', del, ok) ∧
        ∀ a, s'.Covers a ↔ s.Covers a ∨ (⟨0x0A000000, 0xFF000000⟩ : IPNet).Covers a := by
  refine ⟨_, rfl, ?_⟩
  obtain ⟨⟨s', del, ok, h, hcov, _⟩, _⟩ := add_contains_correct
    [.add Order.stored ⟨0x0A010203, 0xFFFFFFFF⟩] (by
      intro op hop
      rw [List.mem_singleton.mp hop]
      exact ⟨⟨0, by decide, by decide⟩, by decide⟩)
    _ rfl Order.stored ⟨0x0A000000, 0xFF000000⟩ ⟨⟨24, by decide, by decide⟩, by decide⟩
  exact ⟨s', del, ok, h, hcov⟩

end Dni
