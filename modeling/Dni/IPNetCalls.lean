import Dni.IPNetAdd

namespace Dni

open GoMap

/-- What Add does: nothing when a member contains the net, and otherwise the net takes the place of
the members within it, which are the ones it returns. -/
inductive AddSpec (i : IPNetSet) (n : IPNet) : Option (IPNetSet × List IPNet × Bool) → Prop
  | skip {m} (hm : m ∈ i.inets) (hw : n.Within m) : AddSpec i n (some (i, [], false))
  | done {i' l del} (hout : ∀ m ∈ i.inets, ¬ n.Within m) (hrep : Represents i' l)
      (hinets : ∀ m, m ∈ i'.inets ↔ m = n ∨ m ∈ i.inets ∧ ¬ m.Within n) (hnodup : del.Nodup)
      (hdel : ∀ m, m ∈ del ↔ m ∈ i.inets ∧ m.Within n) : AddSpec i n (some (i', del, true))

namespace Represents

theorem add_empty {i : IPNetSet} {ms : List IPNet} (h : Represents i ms) {n : IPNet}
    (hn : n.Canonical) (he : i.empty = true) (ord : Order IPNet Unit) :
    AddSpec i n (i.add ord n) := by
  have hno := (empty_iff i).mp he
  have hms : ms = [] := List.eq_nil_iff_forall_not_mem.mpr fun m hm => hno m ((h.wider m).mp hm).1
  have hsingle : ∀ m, m ∉ i.single := fun m hm => hno m ((h.single m).mp hm).1
  subst hms
  unfold IPNetSet.add
  rw [if_pos he]
  split
  next hmask =>
    refine AddSpec.done (fun m hm => (hno m hm).elim) (l := [n])
      (h.insert hn (fun m hm => (hno m hm).elim) (fun m => ?_) (fun m => ?_) (fun m => ?_) (by simp) rfl)
      (fun m => ?_) List.nodup_nil fun m => ?_
    · simp [hno]
    · simp [hsingle, hmask]
    · simp [hmask]
    · simp [hno]
    · simp [hno]
  next hmask =>
    rw [ne_eq, not_not] at hmask
    refine AddSpec.done (fun m hm => (hno m hm).elim) (l := [])
      (h.insert hn (fun m hm => (hno m hm).elim) (fun m => ?_) (fun m => ?_) (fun m => ?_) (by simp)
        h.ranges) (fun m => ?_) List.nodup_nil fun m => ?_
    · simp [hno]
    · simp [hsingle, hmask]
    · simp [hmask]
    · simp [hno]
    · simp [hno]

/-- The state of Add after it has scanned the single addresses. -/
def scanned (ord : Order IPNet Unit) (i : IPNetSet) (n : IPNet) : IPNetSet.Adding :=
  (ord.keys i.single).foldl (IPNetSet.Adding.dropSingle (ipNetToRange n)) ⟨i, [], false⟩

theorem scanned_spec {i : IPNetSet} {ms : List IPNet} (h : Represents i ms) {n : IPNet}
    (hn : n.Canonical) (ord : Order IPNet Unit) :
    (scanned ord i n).set.ranges = i.ranges ∧
      (∀ m, m ∈ (scanned ord i n).set.inets ↔ m ∈ i.inets ∧ ¬ (m ∈ i.single ∧ m.Within n)) ∧
      (∀ m, m ∈ (scanned ord i n).set.single ↔ m ∈ i.single ∧ ¬ m.Within n) ∧
      (scanned ord i n).del.Nodup ∧
      ∀ m, m ∈ (scanned ord i n).del ↔ m ∈ i.single ∧ m.Within n := by
  unfold scanned
  rw [foldl_dropSingle]
  refine ⟨rfl, fun m => ?_, fun m => ?_, ?_, fun m => ?_⟩
  · rw [mem_foldl_erase, h.scanned_iff hn]
  · rw [mem_foldl_erase, h.scanned_iff hn]
    tauto
  · simpa using (ord.keys_nodup i.single).filter _
  · simpa using h.scanned_iff hn ord m

theorem scanned_eq_self {i : IPNetSet} {ms : List IPNet} (h : Represents i ms) {n : IPNet}
    (hn : n.Canonical) (ord : Order IPNet Unit) (hno : ∀ m ∈ i.single, ¬ m.Within n) :
    scanned ord i n = ⟨i, [], false⟩ := by
  have hnil : (ord.keys i.single).filter (fun m => (ipNetToRange n).contains m.ipAddr) = [] :=
    List.eq_nil_iff_forall_not_mem.mpr fun m hm => by
      obtain ⟨hs, hw⟩ := (h.scanned_iff hn ord m).mp hm
      exact hno m hs hw
  have hany : ((ord.keys i.single).any fun m => (ipNetToRange n).contains m.ipAddr) = false := by
    rw [List.any_eq_false]
    exact List.filter_eq_nil_iff.mp hnil
  rw [scanned, foldl_dropSingle, hnil, hany]
  rfl

/-- The result of an Add that inserts `n` at the split, once the ranges and maps are as listed. -/
theorem add_done {i i' : IPNetSet} {pre post : List IPNet} (h : Represents i (pre ++ post))
    {n : IPNet} (hn : n.Canonical) (hmem : n ∉ i.inets) (ord : Order IPNet Unit)
    (hpre : ∀ m ∈ pre, m.first < n.first) (hpost : ∀ m ∈ post, n.first ≤ m.first)
    (hout : ∀ m ∈ pre ++ post, ¬ n.Within m) (hwide : n.mask ≠ uint32Max)
    (hinets : ∀ m, m ∈ i'.inets ↔ m = n ∨ m ∈ (scanned ord i n).set.inets ∧
      m ∉ post.takeWhile fun m => m.last ≤ n.last)
    (hsingle : i'.single = (scanned ord i n).set.single)
    (hranges : i'.ranges = (pre ++ n :: post.dropWhile fun m => m.last ≤ n.last).map ipNetToRange) :
    AddSpec i n (some (i', (scanned ord i n).del ++ post.takeWhile fun m => m.last ≤ n.last, true)) := by
  obtain ⟨_, hsi, hss, hnodup, hdel⟩ := h.scanned_spec hn ord
  obtain ⟨hasc, htake, hms⟩ := h.listed.insert hn hpre hpost hout
  have hall := h.outside hmem hout
  have hmembers : ∀ m, m ∈ i'.inets ↔ m = n ∨ m ∈ i.inets ∧ ¬ m.Within n := by
    intro m
    rw [hinets, hsi, htake, h.single, h.wider]
    by_cases hmask : m.mask = uint32Max <;> simp [hmask] <;> tauto
  refine AddSpec.done hall (h.insert hn hall hmembers (fun m => ?_) (fun m => ?_) hasc hranges)
    hmembers ?_ fun m => ?_
  · rw [hsingle, hss]
    simp [hwide]
  · rw [hms]
    simp [hwide]
  · refine List.nodup_append.mpr ⟨hnodup, ?_, fun a ha b hb hab => ?_⟩
    · have hsub := (List.takeWhile_sublist fun m : IPNet => decide (m.last ≤ n.last)).trans
        (List.sublist_append_right pre post)
      refine (h.listed.starts.sublist hsub).imp fun {a b} hlt => ?_
      rintro rfl
      omega
    · subst hab
      have h1 := (h.single a).mp ((hdel a).mp ha).1
      have h2 := (h.wider a).mp ((htake a).mp hb).1
      exact h2.2 h1.2
  · rw [List.mem_append, hdel, htake, h.single, h.wider]
    by_cases hmask : m.mask = uint32Max <;> simp [hmask]

theorem insertAt_eq {α : Type*} (pre : List α) (q r : α) (post : List α) :
    ((pre ++ q :: post).take (pre.length + 1) ++ (pre ++ q :: post).drop pre.length).set pre.length r =
      pre ++ r :: q :: post := by
  simp [List.take_append]

theorem replaceAt_eq {α : Type*} (pre : List α) (q r : α) (post rest : List α) :
    ((pre ++ q :: (post ++ rest)).set pre.length r).take (pre.length + 1) ++
      ((pre ++ q :: (post ++ rest)).set pre.length r).drop (pre.length + (post.length + 1)) =
        pre ++ r :: rest := by
  have h1 : pre.take (pre.length + 1) = pre := List.take_of_length_le (by omega)
  have h2 : pre.drop (pre.length + (post.length + 1)) = [] := List.drop_eq_nil_of_le (by omega)
  simp [List.take_append, List.drop_append, h1, h2]

theorem add_unrelated {i : IPNetSet} {pre post : List IPNet} (h : Represents i (pre ++ post))
    {n : IPNet} (hn : n.Canonical) (hmem : n ∉ i.inets) (ord : Order IPNet Unit)
    (hpre : ∀ m ∈ pre, m.first < n.first) (hpost : ∀ m ∈ post, n.first ≤ m.first)
    (hout : ∀ m ∈ pre ++ post, ¬ n.Within m) (hin : ∀ m ∈ pre ++ post, ¬ m.Within n)
    (hne : i.empty ≠ true)
    (hs : (scanned ord i n).set.searchNet n = (pre.length, -2)) : AddSpec i n (i.add ord n) := by
  obtain ⟨hranges, hsi, hss, hnodup, hdel⟩ := h.scanned_spec hn ord
  have hr := hranges.trans h.ranges
  have hnil : post.takeWhile (fun m => decide (m.last ≤ n.last)) = [] :=
    List.eq_nil_iff_forall_not_mem.mpr fun m hm => by
      obtain ⟨hm', hw⟩ := ((h.listed.insert hn hpre hpost hout).2.1 m).mp hm
      exact hin m hm' hw
  have hdrop : post.dropWhile (fun m => decide (m.last ≤ n.last)) = post := by
    have := List.takeWhile_append_dropWhile (p := fun m : IPNet => decide (m.last ≤ n.last)) (l := post)
    rwa [hnil] at this
  unfold IPNetSet.add
  rw [if_neg hne, if_neg hmem]
  simp only [← scanned.eq_def, hs, if_true]
  split
  next hmask =>
    have hall := h.outside hmem hout
    have hmembers : ∀ m, m ∈ (scanned ord i n).set.inets ↔ m ∈ i.inets ∧ ¬ m.Within n := by
      intro m
      rw [hsi]
      refine and_congr_right fun hm => not_congr ⟨And.right, fun hw => ⟨?_, hw⟩⟩
      refine (h.single m).mpr ⟨hm, by_contra fun hmm => hin m ((h.wider m).mpr ⟨hm, hmm⟩) hw⟩
    refine AddSpec.done hall (l := pre ++ post)
      (h.insert hn hall (fun m => ?_) (fun m => ?_) (fun m => ?_) h.ascending hr) (fun m => ?_) hnodup
      fun m => ?_
    · rw [AList.mem_insert, hmembers]
    · rw [AList.mem_insert, hss]
      simp [hmask]
    · simp only [hmask, ne_eq, not_true_eq_false, and_false, false_or]
      exact ⟨fun hm => ⟨hm, hin m hm⟩, And.left⟩
    · rw [AList.mem_insert, hmembers]
    · rw [hdel, h.single]
      refine ⟨fun hm => ⟨hm.1.1, hm.2⟩, fun hm => ⟨⟨hm.1, ?_⟩, hm.2⟩⟩
      exact by_contra fun hmm => hin m ((h.wider m).mpr ⟨hm.1, hmm⟩) hm.2
  next hwide =>
    have hdone := fun (i' : IPNetSet) => @add_done i i' pre post h n hn hmem ord hpre hpost hout hwide
    rw [hnil, hdrop, List.append_nil] at hdone
    cases post with
    | nil =>
      rw [if_pos (by simp [hr])]
      exact hdone _ (fun m => by simp) rfl (by simp [hr])
    | cons q post =>
      rw [if_neg (by simp [hr])]
      refine hdone _ (fun m => by simp) rfl ?_
      have := insertAt_eq (pre.map ipNetToRange) (ipNetToRange q) (ipNetToRange n) (post.map ipNetToRange)
      rw [List.length_map] at this
      simpa [hr] using this

theorem add_swallows {i : IPNetSet} {pre post : List IPNet} {q : IPNet}
    (h : Represents i (pre ++ q :: post)) {n : IPNet} (hn : n.Canonical) (hmem : n ∉ i.inets)
    (ord : Order IPNet Unit) (hpre : ∀ m ∈ pre, m.first < n.first)
    (hpost : ∀ m ∈ q :: post, n.first ≤ m.first) (hout : ∀ m ∈ pre ++ q :: post, ¬ n.Within m)
    (hq : q.Within n) (hne : i.empty ≠ true)
    (hs : (scanned ord i n).set.searchNet n = (pre.length, 1)) : AddSpec i n (i.add ord n) := by
  have hr := (h.scanned_spec hn ord).1.trans h.ranges
  have hwide := h.wide_of_within hn (q := q) (by simp) hq
  have hql : q.last ≤ n.last := ((hn.within_iff q).mp hq).2
  have hdrop : (pre ++ q :: post).drop pre.length = q :: post := by simp
  unfold IPNetSet.add
  rw [if_neg hne, if_neg hmem]
  simp only [← scanned.eq_def, hs, if_true, hr, ← List.map_drop, hdrop,
    swallow_spec n h.listed.right.canonical]
  simp only [Int.reduceEq, Int.reduceNeg, if_false, Option.bind_eq_bind, Option.bind_some,
    Option.pure_def]
  refine h.add_done hn hmem ord hpre hpost hout hwide (fun m => ?_) rfl ?_
  · have hnot : n ∉ (q :: post).takeWhile fun m => decide (m.last ≤ n.last) := fun hmn =>
      hmem ((h.wider n).mp (List.mem_append_right _ ((List.takeWhile_sublist _).subset hmn))).1
    rw [mem_foldl_erase, AList.mem_insert]
    constructor
    · rintro ⟨rfl | hm, ht⟩
      · exact Or.inl rfl
      · exact Or.inr ⟨hm, ht⟩
    · rintro (rfl | ⟨hm, ht⟩)
      · exact ⟨Or.inl rfl, hnot⟩
      · exact ⟨Or.inr hm, ht⟩
  · have hsplit := List.takeWhile_append_dropWhile (p := fun m : IPNet => decide (m.last ≤ n.last))
      (l := post)
    have hrep := replaceAt_eq (pre.map ipNetToRange) (ipNetToRange q) (ipNetToRange n)
      ((post.takeWhile fun m => m.last ≤ n.last).map ipNetToRange)
      ((post.dropWhile fun m => m.last ≤ n.last).map ipNetToRange)
    rw [← List.map_append, hsplit] at hrep
    simpa [hql, List.takeWhile_cons, List.dropWhile_cons] using hrep

theorem add_spec {i : IPNetSet} {ms : List IPNet} (h : Represents i ms) {n : IPNet}
    (hn : n.Canonical) (ord : Order IPNet Unit) : AddSpec i n (i.add ord n) := by
  by_cases he : i.empty = true
  · exact h.add_empty hn he ord
  by_cases hmem : n ∈ i.inets
  · unfold IPNetSet.add
    rw [if_neg he, if_pos hmem]
    exact AddSpec.skip hmem fun _ ha => ha
  obtain ⟨hranges, _⟩ := h.scanned_spec hn ord
  have hsought := h.listed.searchNet_spec (hranges.trans h.ranges) n
  generalize hs : (scanned ord i n).set.searchNet n = out at hsought
  cases hsought with
  | @inside idx c m hm hin hc =>
    have hmi := (h.wider m).mp hm
    have hno : ∀ x ∈ i.single, ¬ x.Within n := by
      intro x hx hw
      have hxi := (h.single x).mp hx
      have := h.antichain x hxi.1 m hmi.1 fun a ha => hin a (hw a ha)
      exact hmi.2 (this ▸ hxi.2)
    have hself := h.scanned_eq_self hn ord hno
    unfold IPNetSet.add
    rw [if_neg he, if_neg hmem]
    simp only [← scanned.eq_def, hs]
    rw [if_neg (by omega), if_neg (by omega), hself]
    exact AddSpec.skip hmi.1 hin
  | @unrelated pre post hms hpre hpost hout hin =>
    subst hms
    exact h.add_unrelated hn hmem ord hpre hpost hout (fun m hm hw => hin m hm ((hn.within_iff m).mp hw)) he hs
  | @swallows pre post q hms hpre hpost hout hq =>
    subst hms
    exact h.add_swallows hn hmem ord hpre hpost hout ((hn.within_iff q).mpr hq) he hs

end Represents

end Dni
