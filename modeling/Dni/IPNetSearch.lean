import Dni.IPNetFacts

namespace Dni

open SortSearch

theorem ipEqual_range_start (m n : IPNet) :
    ipEqual (ipNetToRange m).start (ipNetToRange n).start = true ↔ m.first = n.first := by
  rw [ipEqual, if_pos (m.range_start_length.trans n.range_start_length.symm), beq_iff_eq]
  change uiton _ = uiton _ ↔ _
  rw [uiton_inj, ← UInt32.toNat_inj]
  rfl

theorem start_nonneg_iff (m n : IPNet) :
    0 ≤ Bytes.compare (ipNetToRange m).start (ipNetToRange n).start ↔ n.first ≤ m.first := by
  have hl := m.range_start_length.trans n.range_start_length.symm
  rw [Bytes.compare_nonneg_iff hl, m.val_range_start, n.val_range_start]

theorem compare_stop (n m : IPNet) :
    Bytes.compare (ipNetToRange n).stop (ipNetToRange m).stop =
      if n.last < m.last then -1 else if m.last < n.last then 1 else 0 := by
  have hl := n.range_stop_length.trans m.range_stop_length.symm
  rw [Bytes.compare_eq hl, n.val_range_stop, m.val_range_stop]

theorem stop_nonpos_iff (n m : IPNet) :
    Bytes.compare (ipNetToRange n).stop (ipNetToRange m).stop ≤ 0 ↔ n.last ≤ m.last := by
  rw [compare_stop]
  split <;> [omega; split <;> omega]

theorem stop_nonneg_iff (n m : IPNet) :
    0 ≤ Bytes.compare (ipNetToRange n).stop (ipNetToRange m).stop ↔ m.last ≤ n.last := by
  rw [compare_stop]
  split <;> [omega; split <;> omega]

/-- Canonical nets in ascending order, no two of which meet. -/
structure Listed (ms : List IPNet) : Prop where
  canonical : ∀ m ∈ ms, m.Canonical
  ascending : ms.Pairwise fun a b => a.last < b.first

namespace Listed

theorem starts {ms : List IPNet} (h : Listed ms) :
    ms.Pairwise fun a b => a.first < b.first ∧ a.last < b.last := by
  refine h.ascending.imp fun {a b} hab => ?_
  have h1 := a.first_le_last
  have h2 := b.first_le_last
  omega

/-- The search for the start of a net splits the listed nets at that start. -/
theorem startIndex_split {i : IPNetSet} {ms : List IPNet} (h : Listed ms)
    (hr : i.ranges = ms.map ipNetToRange) (n : IPNet) :
    ∃ pre post, ms = pre ++ post ∧ i.startIndex (ipNetToRange n) = pre.length ∧
      (∀ m ∈ pre, m.first < n.first) ∧ ∀ m ∈ post, n.first ≤ m.first := by
  have hp : ∀ m : IPNet, decide (0 ≤ Bytes.compare (ipNetToRange m).start (ipNetToRange n).start) = true ↔
      n.first ≤ m.first := by
    intro m
    rw [decide_eq_true_eq, start_nonneg_iff]
  obtain ⟨pre, post, hms, hidx, hlo, hhi⟩ := search_split
    (fun m => decide (0 ≤ Bytes.compare (ipNetToRange m).start (ipNetToRange n).start))
    (l := ms) (h.starts.imp fun hab ha => by rw [hp] at ha ⊢; omega)
  refine ⟨pre, post, hms, ?_, fun m hm => ?_, fun m hm => (hp m).mp (hhi m hm)⟩
  · rw [IPNetSet.startIndex, hr, List.length_map]
    simpa only [List.getElem?_map, Option.any_map, Function.comp_def] using hidx
  · have hf := hlo m hm
    have hnot := (hp m).not.mp (by simp [hf])
    omega

theorem left {pre post : List IPNet} (h : Listed (pre ++ post)) : Listed pre :=
  ⟨fun m hm => h.canonical m (by simp [hm]), (List.pairwise_append.mp h.ascending).1⟩

theorem right {pre post : List IPNet} (h : Listed (pre ++ post)) : Listed post :=
  ⟨fun m hm => h.canonical m (by simp [hm]), (List.pairwise_append.mp h.ascending).2.1⟩

theorem last_le_last {pre : List IPNet} {p : IPNet} (h : Listed (pre ++ [p])) {m : IPNet}
    (hm : m ∈ pre ++ [p]) : m.last ≤ p.last := by
  rcases List.mem_append.mp hm with hm | hm
  · exact Nat.le_of_lt ((List.pairwise_append.mp h.starts).2.2 m hm p (by simp)).2
  · rw [List.mem_singleton.mp hm]

theorem first_le_first {q : IPNet} {rest : List IPNet} (h : Listed (q :: rest)) {m : IPNet}
    (hm : m ∈ q :: rest) : q.first ≤ m.first ∧ q.last ≤ m.last := by
  rcases List.mem_cons.mp hm with rfl | hm
  · exact ⟨le_rfl, le_rfl⟩
  · have := (List.pairwise_cons.mp h.starts).1 m hm
    omega

end Listed

/-- The other net lies between the bounds of this one. -/
def IPNet.Spans (n m : IPNet) : Prop := n.first ≤ m.first ∧ m.last ≤ n.last

/-- What the search says about a net: it lies within a listed one, it is unrelated to all of them,
or its range strictly contains that of the first one from its start on. -/
inductive Sought (ms : List IPNet) (n : IPNet) : Nat × Int → Prop
  | inside {idx c m} (hm : m ∈ ms) (hin : n.Within m) (hc : c = -1 ∨ c = 0) : Sought ms n (idx, c)
  | unrelated {pre post} (hms : ms = pre ++ post) (hpre : ∀ m ∈ pre, m.first < n.first)
      (hpost : ∀ m ∈ post, n.first ≤ m.first) (hout : ∀ m ∈ ms, ¬ n.Within m)
      (hin : ∀ m ∈ ms, ¬ n.Spans m) : Sought ms n (pre.length, -2)
  | swallows {pre post q} (hms : ms = pre ++ q :: post) (hpre : ∀ m ∈ pre, m.first < n.first)
      (hpost : ∀ m ∈ q :: post, n.first ≤ m.first) (hout : ∀ m ∈ ms, ¬ n.Within m)
      (hq : n.Spans q) : Sought ms n (pre.length, 1)

namespace Listed

/-- The range before the split decides whether anything before it reaches as far as `n`. -/
theorem previous_spec {pre post : List IPNet} {n : IPNet} (h : Listed (pre ++ post))
    (hpre : ∀ m ∈ pre, m.first < n.first) (hne : pre ≠ []) :
    if (((pre ++ post).map ipNetToRange)[pre.length - 1]?.any
      fun r => Bytes.compare (ipNetToRange n).stop r.stop ≤ 0) = true
    then ∃ p ∈ pre, n.Within p else ∀ m ∈ pre, m.last < n.last := by
  rcases List.eq_nil_or_concat pre with rfl | ⟨pre, p, rfl⟩
  · exact absurd rfl hne
  · rw [List.concat_eq_append] at *
    have hget : ((pre ++ [p] ++ post).map ipNetToRange)[(pre ++ [p]).length - 1]? =
        some (ipNetToRange p) := by simp
    have hp : p ∈ pre ++ [p] := by simp
    rw [hget, Option.any_some]
    split
    next hc =>
      rw [decide_eq_true_eq, stop_nonpos_iff] at hc
      have := hpre p hp
      exact ⟨p, hp, ((h.canonical p (by simp)).within_iff n).mpr ⟨by omega, hc⟩⟩
    next hc =>
      rw [decide_eq_true_eq, stop_nonpos_iff] at hc
      intro m hm
      have := h.left.last_le_last hm
      omega

/-- Nothing listed contains `n` when all before the split end first and all after it start later. -/
theorem not_within {pre post : List IPNet} {n : IPNet} (h : Listed (pre ++ post))
    (hlast : ∀ m ∈ pre, m.last < n.last)
    (hpost : ∀ m ∈ post, m.first ≤ n.first → m.last < n.last) :
    ∀ m ∈ pre ++ post, ¬ n.Within m := by
  intro m hm hw
  rw [(h.canonical m hm).within_iff] at hw
  rcases List.mem_append.mp hm with hm | hm
  · have := hlast m hm
    omega
  · have := hpost m hm hw.1
    omega

theorem not_spans {pre post : List IPNet} {n : IPNet} (hpre : ∀ m ∈ pre, m.first < n.first)
    (hpost : ∀ m ∈ post, n.last < m.last) : ∀ m ∈ pre ++ post, ¬ n.Spans m := by
  intro m hm ⟨hfirst, hlast⟩
  rcases List.mem_append.mp hm with hm | hm
  · have := hpre m hm
    omega
  · have := hpost m hm
    omega

/-- A net that starts where a listed one does is compared by its end. -/
theorem sought_same_start {pre rest : List IPNet} {q n : IPNet} (h : Listed (pre ++ q :: rest))
    (hpre : ∀ m ∈ pre, m.first < n.first)
    (hpost : ∀ m ∈ q :: rest, n.first ≤ m.first) (hq : q.first = n.first) :
    Sought (pre ++ q :: rest) n
      (pre.length, Bytes.compare (ipNetToRange n).stop (ipNetToRange q).stop) := by
  have hmem : q ∈ pre ++ q :: rest := by simp
  rw [compare_stop]
  split
  next hlt =>
    exact Sought.inside hmem (((h.canonical q hmem).within_iff n).mpr ⟨by omega, by omega⟩)
      (Or.inl rfl)
  next hge =>
    split
    next hgt =>
      refine Sought.swallows rfl hpre hpost (h.not_within (fun m hm => ?_) fun m hm hle => ?_)
        ⟨by omega, by omega⟩
      · have h1 := (List.pairwise_append.mp h.ascending).2.2 m hm q (by simp)
        have h2 := n.first_le_last
        omega
      · rcases List.mem_cons.mp hm with rfl | hm
        · exact hgt
        · have h1 := (List.pairwise_cons.mp h.right.ascending).1 m hm
          have h2 := q.first_le_last
          omega
    next hle =>
      exact Sought.inside hmem (((h.canonical q hmem).within_iff n).mpr ⟨by omega, by omega⟩)
        (Or.inr rfl)

/-- A net that starts before the range at the split either contains it or is unrelated. -/
theorem sought_before {pre rest : List IPNet} {q n : IPNet} (h : Listed (pre ++ q :: rest))
    (hpre : ∀ m ∈ pre, m.first < n.first)
    (hpost : ∀ m ∈ q :: rest, n.first ≤ m.first) (hq : q.first ≠ n.first)
    (hlast : ∀ m ∈ pre, m.last < n.last) :
    Sought (pre ++ q :: rest) n
      (if 0 ≤ Bytes.compare (ipNetToRange n).stop (ipNetToRange q).stop then (pre.length, 1)
        else (pre.length, -2)) := by
  have hqn := hpost q (by simp)
  have hout := h.not_within hlast fun m hm hle => by
    have := (h.right.first_le_first hm).1
    omega
  split
  next hc =>
    rw [stop_nonneg_iff] at hc
    exact Sought.swallows rfl hpre hpost hout ⟨hqn, hc⟩
  next hc =>
    rw [stop_nonneg_iff] at hc
    refine Sought.unrelated rfl hpre hpost hout (not_spans hpre fun m hm => ?_)
    have := (h.right.first_le_first hm).2
    omega

theorem searchNet_spec {i : IPNetSet} {ms : List IPNet} (h : Listed ms)
    (hr : i.ranges = ms.map ipNetToRange) (n : IPNet) :
    Sought ms n (i.searchNet n) := by
  unfold IPNetSet.searchNet
  split
  next hz =>
    rw [hr, List.length_map, List.length_eq_zero_iff] at hz
    subst hz
    exact @Sought.unrelated [] n [] [] rfl (by simp) (by simp) (by simp) (by simp)
  next hz =>
    obtain ⟨pre, post, rfl, hidx, hpre, hpost⟩ := h.startIndex_split hr n
    simp only [hidx, hr]
    cases post with
    | nil =>
      have hne : pre ≠ [] := by rintro rfl; simp [hr] at hz
      have hprev := h.previous_spec hpre hne
      have hnone : ((pre ++ []).map ipNetToRange)[pre.length]? = none := by simp
      simp only [hnone]
      split at hprev
      next hin =>
        obtain ⟨p, hp, hw⟩ := hprev
        rw [if_pos hin]
        exact Sought.inside (by simp [hp]) hw (Or.inl rfl)
      next hin =>
        rw [if_neg hin]
        exact Sought.unrelated rfl hpre hpost (h.not_within hprev (by simp))
          (not_spans hpre (by simp))
    | cons q rest =>
      have hsome : ((pre ++ q :: rest).map ipNetToRange)[pre.length]? = some (ipNetToRange q) := by
        simp
      simp only [hsome]
      split
      next heq => exact h.sought_same_start hpre hpost ((ipEqual_range_start q n).mp heq)
      next heq =>
        have hq := (ipEqual_range_start q n).not.mp heq
        split
        next hin =>
          simp only [ne_eq, Bool.and_eq_true, decide_eq_true_eq, List.length_eq_zero_iff] at hin
          have hprev := h.previous_spec hpre hin.1
          rw [if_pos hin.2] at hprev
          obtain ⟨p, hp, hw⟩ := hprev
          exact Sought.inside (by simp [hp]) hw (Or.inl rfl)
        next hin =>
          refine h.sought_before hpre hpost hq ?_
          by_cases hnil : pre = []
          · simp [hnil]
          · have hprev := h.previous_spec hpre hnil
            simp only [ne_eq, Bool.and_eq_true, decide_eq_true_eq, List.length_eq_zero_iff, not_and] at hin
            rwa [if_neg (hin hnil)] at hprev

end Listed

end Dni
