import Dni.IPNetSearch

namespace Dni

open GoMap

/-- The three structures of a set agree: `ms` are its wider members in the order of the ranges. -/
structure Represents (i : IPNetSet) (ms : List IPNet) : Prop where
  ranges : i.ranges = ms.map ipNetToRange
  ascending : ms.Pairwise fun a b => a.last < b.first
  wider : ∀ n, n ∈ ms ↔ n ∈ i.inets ∧ n.mask ≠ uint32Max
  single : ∀ n, n ∈ i.single ↔ n ∈ i.inets ∧ n.mask = uint32Max
  canonical : ∀ n ∈ i.inets, n.Canonical
  antichain : ∀ m ∈ i.inets, ∀ n ∈ i.inets, m.Within n → m = n

theorem Represents.listed {i : IPNetSet} {ms : List IPNet} (h : Represents i ms) : Listed ms :=
  ⟨fun m hm => h.canonical m ((h.wider m).mp hm).1, h.ascending⟩

theorem newIPNetSet_represents : Represents newIPNetSet [] := by
  constructor <;> simp [newIPNetSet]

theorem empty_iff (i : IPNetSet) : i.empty = true ↔ ∀ n, n ∉ i.inets := by
  rw [IPNetSet.empty, IPNetSet.size, beq_iff_eq, List.length_eq_zero_iff]
  constructor
  · intro h n hn
    rw [AList.mem_keys, AList.keys, h] at hn
    simp at hn
  · intro h
    cases he : i.inets.entries with
    | nil => rfl
    | cons e es => exact absurd (show e.1 ∈ i.inets by rw [AList.mem_keys, AList.keys, he]; simp) (h e.1)

theorem mem_foldl_erase {l : List IPNet} {m : GoMap IPNet Unit} {n : IPNet} :
    n ∈ l.foldl (fun m n => m.erase n) m ↔ n ∈ m ∧ n ∉ l := by
  induction l generalizing m with
  | nil => simp
  | cons x l ih =>
    rw [List.foldl_cons, ih, AList.mem_erase, List.mem_cons]
    tauto

/-- The scan of the single addresses erases those in the range from both maps. -/
theorem foldl_dropSingle (r : Range IP) (l : List IPNet) (st : IPNetSet.Adding) :
    l.foldl (IPNetSet.Adding.dropSingle r) st =
      ⟨⟨(l.filter fun n => r.contains n.ipAddr).foldl (fun m n => m.erase n) st.set.inets,
        (l.filter fun n => r.contains n.ipAddr).foldl (fun m n => m.erase n) st.set.single,
        st.set.ranges⟩, st.del ++ l.filter fun n => r.contains n.ipAddr,
        st.ok || l.any fun n => r.contains n.ipAddr⟩ := by
  induction l generalizing st with
  | nil => simp
  | cons n l ih =>
    rw [List.foldl_cons, ih]
    by_cases hc : r.contains n.ipAddr = true
    · simp [IPNetSet.Adding.dropSingle, hc]
    · simp [IPNetSet.Adding.dropSingle, hc]

/-- The loop over the ranges erases the leading nets that end inside the new one. -/
theorem swallow_spec (n : IPNet) {l : List IPNet} (hl : ∀ m ∈ l, m.Canonical) (st : IPNetSet.Adding) :
    st.swallow (ipNetToRange n) (l.map ipNetToRange) =
      some (⟨{ st.set with
        inets := (l.takeWhile fun m => m.last ≤ n.last).foldl (fun m n => m.erase n) st.set.inets },
        st.del ++ l.takeWhile fun m => m.last ≤ n.last, st.ok⟩,
        (l.takeWhile fun m => m.last ≤ n.last).length) := by
  induction l generalizing st with
  | nil => simp [IPNetSet.Adding.swallow]
  | cons q l ih =>
    rw [List.map_cons, IPNetSet.Adding.swallow]
    split
    next hc =>
      rw [stop_nonpos_iff] at hc
      obtain ⟨x, hx, hq⟩ := (hl q (by simp)).toIPNets
      simp only [hx, Option.bind_eq_bind, Option.bind_some, List.mapM_cons, hq, List.mapM_nil,
        Option.pure_def, List.foldl_cons, List.foldl_nil, ih (fun m hm => hl m (by simp [hm]))]
      simp [hc]
    next hc =>
      rw [stop_nonpos_iff] at hc
      simp [hc]

namespace Listed

/-- The nets that the new one swallows follow the split, and the others lie clear of it. -/
theorem insert_split {pre post : List IPNet} {n : IPNet} (h : Listed (pre ++ post))
    (hn : n.Canonical) (hpre : ∀ m ∈ pre, m.first < n.first) (hpost : ∀ m ∈ post, n.first ≤ m.first)
    (hout : ∀ m ∈ pre ++ post, ¬ n.Within m) :
    (∀ m ∈ pre, m.last < n.first) ∧ (∀ m ∈ post.takeWhile fun m => m.last ≤ n.last, m.Within n) ∧
      ∀ m ∈ post.dropWhile fun m => m.last ≤ n.last, n.last < m.first := by
  have hnl := n.first_le_last
  refine ⟨fun m hm => ?_, fun m hm => ?_, fun m hm => ?_⟩
  · have hm' := List.mem_append_left post hm
    have h1 := hpre m hm
    have h2 := hout m hm'
    rw [(h.canonical m hm').within_iff] at h2
    have := (h.canonical m hm').apart_or_nested hn
    omega
  · have hmp := (List.takeWhile_sublist _).subset hm
    have h1 := hpost m hmp
    have h2 := List.all_eq_true.mp List.all_takeWhile m hm
    rw [decide_eq_true_eq] at h2
    exact (hn.within_iff m).mpr ⟨h1, h2⟩
  · have hmp := (List.dropWhile_sublist _).subset hm
    have hm' := List.mem_append_right pre hmp
    have hml := m.first_le_last
    have h1 := hpost m hmp
    have h2 := hout m hm'
    rw [(h.canonical m hm').within_iff] at h2
    have h3 : n.last < m.last := by
      cases hd : post.dropWhile fun m => m.last ≤ n.last with
      | nil => simp [hd] at hm
      | cons q rest =>
        have hq := List.head?_dropWhile_not (fun m : IPNet => decide (m.last ≤ n.last)) post
        rw [hd] at hq hm
        simp only [List.head?_cons, decide_eq_false_iff_not] at hq
        have hl : Listed (q :: rest) := by
          rw [← hd]
          exact ⟨fun x hx => h.right.canonical x ((List.dropWhile_sublist _).subset hx),
            h.right.ascending.sublist (List.dropWhile_sublist _)⟩
        have := (hl.first_le_first hm).2
        omega
    have := (h.canonical m hm').apart_or_nested hn
    omega

/-- The listed nets once `n` has taken the place of those within it. -/
theorem insert {pre post : List IPNet} {n : IPNet} (h : Listed (pre ++ post))
    (hn : n.Canonical) (hpre : ∀ m ∈ pre, m.first < n.first) (hpost : ∀ m ∈ post, n.first ≤ m.first)
    (hout : ∀ m ∈ pre ++ post, ¬ n.Within m) :
    (pre ++ n :: post.dropWhile fun m => m.last ≤ n.last).Pairwise (fun a b => a.last < b.first) ∧
      (∀ m, m ∈ post.takeWhile (fun m => m.last ≤ n.last) ↔ m ∈ pre ++ post ∧ m.Within n) ∧
      ∀ m, m ∈ (pre ++ n :: post.dropWhile fun m => m.last ≤ n.last) ↔
        m = n ∨ m ∈ pre ++ post ∧ ¬ m.Within n := by
  obtain ⟨h1, h2, h3⟩ := h.insert_split hn hpre hpost hout
  have hasc := List.pairwise_append.mp h.ascending
  have hpre' : ∀ m ∈ pre, ¬ m.Within n := by
    intro m hm hw
    rw [hn.within_iff] at hw
    have := hpre m hm
    omega
  have hdrop : ∀ m ∈ post.dropWhile (fun m => m.last ≤ n.last), ¬ m.Within n := by
    intro m hm hw
    have hm' := List.mem_append_right pre ((List.dropWhile_sublist _).subset hm)
    rw [hn.within_iff] at hw
    have := m.first_le_last
    have := h3 m hm
    omega
  have hpart : ∀ m, m ∈ post ↔ m ∈ post.takeWhile (fun m => m.last ≤ n.last) ∨
      m ∈ post.dropWhile fun m => m.last ≤ n.last := by
    intro m
    rw [← List.mem_append, List.takeWhile_append_dropWhile]
  refine ⟨?_, fun m => ?_, fun m => ?_⟩
  · refine List.pairwise_append.mpr ⟨hasc.1, List.pairwise_cons.mpr
      ⟨h3, hasc.2.1.sublist (List.dropWhile_sublist _)⟩, fun a ha b hb => ?_⟩
    rcases List.mem_cons.mp hb with rfl | hb
    · exact h1 a ha
    · exact hasc.2.2 a ha b ((List.dropWhile_sublist _).subset hb)
  · rw [List.mem_append, hpart]
    constructor
    · intro hm
      exact ⟨Or.inr (Or.inl hm), h2 m hm⟩
    · rintro ⟨hm | hm | hm, hw⟩
      · exact (hpre' m hm hw).elim
      · exact hm
      · exact (hdrop m hm hw).elim
  · rw [List.mem_append, List.mem_append, List.mem_cons, hpart]
    constructor
    · rintro (hm | hm | hm)
      · exact Or.inr ⟨Or.inl hm, hpre' m hm⟩
      · exact Or.inl hm
      · exact Or.inr ⟨Or.inr (Or.inr hm), hdrop m hm⟩
    · rintro (hm | ⟨hm | hm | hm, hw⟩)
      · exact Or.inr (Or.inl hm)
      · exact Or.inl hm
      · exact (hw (h2 m hm)).elim
      · exact Or.inr (Or.inr hm)

end Listed

namespace Represents

/-- The members that stay and the new net are represented again. -/
theorem insert {i i' : IPNetSet} {ms ms' : List IPNet} {n : IPNet} (h : Represents i ms)
    (hn : n.Canonical) (hout : ∀ m ∈ i.inets, ¬ n.Within m)
    (hinets : ∀ m, m ∈ i'.inets ↔ m = n ∨ m ∈ i.inets ∧ ¬ m.Within n)
    (hsingle : ∀ m, m ∈ i'.single ↔ m = n ∧ n.mask = uint32Max ∨ m ∈ i.single ∧ ¬ m.Within n)
    (hms : ∀ m, m ∈ ms' ↔ m = n ∧ n.mask ≠ uint32Max ∨ m ∈ ms ∧ ¬ m.Within n)
    (hasc : ms'.Pairwise fun a b => a.last < b.first)
    (hranges : i'.ranges = ms'.map ipNetToRange) : Represents i' ms' where
  ranges := hranges
  ascending := hasc
  wider m := by
    rw [hms, hinets, h.wider]
    constructor
    · rintro (⟨rfl, hm⟩ | ⟨⟨hm, hmask⟩, hw⟩)
      · exact ⟨Or.inl rfl, hm⟩
      · exact ⟨Or.inr ⟨hm, hw⟩, hmask⟩
    · rintro ⟨rfl | ⟨hm, hw⟩, hmask⟩
      · exact Or.inl ⟨rfl, hmask⟩
      · exact Or.inr ⟨⟨hm, hmask⟩, hw⟩
  single m := by
    rw [hsingle, hinets, h.single]
    constructor
    · rintro (⟨rfl, hm⟩ | ⟨⟨hm, hmask⟩, hw⟩)
      · exact ⟨Or.inl rfl, hm⟩
      · exact ⟨Or.inr ⟨hm, hw⟩, hmask⟩
    · rintro ⟨rfl | ⟨hm, hw⟩, hmask⟩
      · exact Or.inl ⟨rfl, hmask⟩
      · exact Or.inr ⟨⟨hm, hmask⟩, hw⟩
  canonical m hm := by
    rcases (hinets m).mp hm with rfl | ⟨hm, _⟩
    · exact hn
    · exact h.canonical m hm
  antichain a ha b hb hab := by
    rcases (hinets a).mp ha with rfl | ⟨ha, haw⟩
    · rcases (hinets b).mp hb with rfl | ⟨hb, _⟩
      · rfl
      · exact (hout b hb hab).elim
    · rcases (hinets b).mp hb with rfl | ⟨hb, _⟩
      · exact (haw hab).elim
      · exact h.antichain a ha b hb hab

theorem single_bounds {i : IPNetSet} {ms : List IPNet} (h : Represents i ms) {m : IPNet}
    (hm : m ∈ i.single) : m.Canonical ∧ m.first = m.last ∧ m.ipAddr.toNat = m.first := by
  obtain ⟨hi, hmask⟩ := (h.single m).mp hm
  have hc := h.canonical m hi
  exact ⟨hc, hc.single_iff.mp hmask, by rw [IPNet.first, hc.2]⟩

/-- The scan picks exactly the single addresses within the new net. -/
theorem scanned_iff {i : IPNetSet} {ms : List IPNet} (h : Represents i ms) {n : IPNet}
    (hn : n.Canonical) (ord : Order IPNet Unit) (m : IPNet) :
    m ∈ (ord.keys i.single).filter (fun m => (ipNetToRange n).contains m.ipAddr) ↔
      m ∈ i.single ∧ m.Within n := by
  rw [List.mem_filter, Order.mem_keys]
  refine and_congr_right fun hm => ?_
  obtain ⟨hc, hs, hip⟩ := h.single_bounds hm
  rw [IPNet.range_contains_iff, hn.within_iff, hip, hs]

/-- A net that no wider member contains lies within no member at all, unless it is one. -/
theorem outside {i : IPNetSet} {ms : List IPNet} (h : Represents i ms) {n : IPNet}
    (hmem : n ∉ i.inets) (hout : ∀ m ∈ ms, ¬ n.Within m) :
    ∀ m ∈ i.inets, ¬ n.Within m := by
  intro m hm hw
  by_cases hmask : m.mask = uint32Max
  · exact hmem ((h.canonical m hm).eq_of_within_single hmask hw ▸ hm)
  · exact hout m ((h.wider m).mpr ⟨hm, hmask⟩) hw

/-- Only wider nets strictly contain a wider member. -/
theorem wide_of_within {i : IPNetSet} {ms : List IPNet} (h : Represents i ms) {n q : IPNet}
    (hn : n.Canonical) (hq : q ∈ ms) (hw : q.Within n) : n.mask ≠ uint32Max := by
  obtain ⟨hqi, hqm⟩ := (h.wider q).mp hq
  have hc := h.canonical q hqi
  rw [hn.within_iff] at hw
  have := q.first_le_last
  rw [Ne, hn.single_iff]
  rw [Ne, hc.single_iff] at hqm
  omega

end Represents

end Dni
