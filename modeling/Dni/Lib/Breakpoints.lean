import Dni.Lib.LastGiven
import Mathlib.Order.Std
import Mathlib.Order.Compare
import Std.Data.TreeMap.Lemmas
import Mathlib.Order.Lattice

namespace Breakpoints

open LastGiven

variable {κ ν : Type} [LinearOrder κ]

/-- The map into which the entries are written one after the other. -/
def ofList (es : List (κ × ν)) : Std.TreeMap κ ν := es.foldl (fun m e => m.insert e.1 e.2) ∅

/-- The last entry counts whose key is not above `x`. -/
def floorValue (l : List (κ × ν)) (x : κ) : Option ν := ((l.filter fun e => e.1 ≤ x).getLast?).map Prod.snd

theorem getElem?_ofList (es : List (κ × ν)) (k : κ) : (ofList es)[k]? = lastGiven es k := by
  have hloop : ∀ m : Std.TreeMap κ ν,
      (es.foldl (fun m e => m.insert e.1 e.2) m)[k]? = (lastGiven es k).or m[k]? := by
    induction es with
    | nil => exact fun m => (Option.none_or).symm
    | cons e es ih =>
      intro m
      rw [List.foldl_cons, ih, lastGiven, Option.or_assoc, Std.TreeMap.getElem?_insert]
      by_cases he : e.1 = k
      · rw [if_pos (compare_eq_iff_eq.mpr he), if_pos he, Option.some_or]
      · rw [if_neg (mt compare_eq_iff_eq.mp he), if_neg he, Option.none_or]
  rw [ofList, hloop, Std.TreeMap.getElem?_emptyc, Option.or_none]

theorem mem_toList_ofList {es : List (κ × ν)} {k : κ} {v : ν} :
    (k, v) ∈ (ofList es).toList ↔ lastGiven es k = some v := by
  rw [Std.TreeMap.mem_toList_iff_getElem?_eq_some, getElem?_ofList]

theorem ascending (m : Std.TreeMap κ ν) : m.toList.Pairwise fun a b => a.1 < b.1 :=
  Std.TreeMap.ordered_keys_toList.imp fun h => compare_lt_iff_lt.mp h

section Sorted

variable {l : List (κ × ν)}

theorem filter_cons_of_above {e : κ × ν} {x : κ} (hl : (e :: l).Pairwise fun a b => a.1 < b.1) (he : ¬ e.1 ≤ x) :
    (e :: l).filter (fun e => e.1 ≤ x) = [] := by
  rw [List.filter_eq_nil_iff]
  intro a ha hax
  have hax : a.1 ≤ x := of_decide_eq_true hax
  rcases List.mem_cons.mp ha with heq | ha
  · exact he (heq ▸ hax)
  · exact he (((List.pairwise_cons.mp hl).1 a ha).le.trans hax)

/-- The entries that are not above a value stand in front of the others. -/
theorem filter_prefix (hl : l.Pairwise fun a b => a.1 < b.1) (x : κ) : l.filter (fun e => e.1 ≤ x) <+: l := by
  induction l with
  | nil => exact List.prefix_rfl
  | cons e l ih =>
    by_cases he : e.1 ≤ x
    · rw [List.filter_cons_of_pos (by simpa using he)]
      exact (List.prefix_cons_inj e).mpr (ih (List.pairwise_cons.mp hl).2)
    · rw [filter_cons_of_above hl he]
      exact List.nil_prefix

theorem floorValue_cons (hl : (e :: l).Pairwise fun a b : κ × ν => a.1 < b.1) (x : κ) :
    floorValue (e :: l) x = if e.1 ≤ x then (floorValue l x).or (some e.2) else none := by
  by_cases he : e.1 ≤ x
  · rw [if_pos he, floorValue, List.filter_cons_of_pos (by simpa using he), List.getLast?_cons, floorValue]
    cases (l.filter fun e => e.1 ≤ x).getLast? <;> rfl
  · rw [if_neg he, floorValue, filter_cons_of_above hl he]
    rfl

theorem floorValue_eq_none {x : κ} : floorValue l x = none ↔ ∀ e ∈ l, x < e.1 := by
  rw [floorValue, Option.map_eq_none_iff, List.getLast?_eq_none_iff, List.filter_eq_nil_iff]
  simp

theorem floorValue_eq_some (hl : l.Pairwise fun a b => a.1 < b.1) {x : κ} {v : ν} :
    floorValue l x = some v ↔ ∃ k, (k, v) ∈ l ∧ k ≤ x ∧ ∀ e ∈ l, e.1 ≤ x → e.1 ≤ k := by
  have hlast : ∀ e, (l.filter fun e => e.1 ≤ x).getLast? = some e →
      (e ∈ l ∧ e.1 ≤ x) ∧ ∀ a ∈ l, a.1 ≤ x → a = e ∨ a.1 < e.1 := by
    intro e he
    obtain ⟨front, hfront⟩ := List.getLast?_eq_some_iff.mp he
    have hsorted := hl.sublist (List.filter_sublist (p := fun e => decide (e.1 ≤ x)))
    rw [hfront, List.pairwise_append] at hsorted
    have hmem : ∀ a, a ∈ front ++ [e] ↔ a ∈ l ∧ a.1 ≤ x := by
      intro a
      rw [← hfront, List.mem_filter, decide_eq_true_eq]
    refine ⟨(hmem e).mp (by simp), ?_⟩
    intro a ha hax
    rcases List.mem_append.mp ((hmem a).mpr ⟨ha, hax⟩) with hin | hin
    · exact Or.inr (hsorted.2.2 a hin e (List.mem_singleton_self e))
    · exact Or.inl (List.mem_singleton.mp hin)
  rw [floorValue, Option.map_eq_some_iff]
  apply Iff.intro
  · intro ⟨e, he, hv⟩
    obtain ⟨⟨hmem, hle⟩, hbelow⟩ := hlast e he
    refine ⟨e.1, hv ▸ hmem, hle, ?_⟩
    intro a ha hax
    rcases hbelow a ha hax with heq | hlt
    · rw [heq]
    · exact hlt.le
  · intro ⟨k, hk, hkx, hmax⟩
    cases he : (l.filter fun e => e.1 ≤ x).getLast? with
    | none =>
      rw [List.getLast?_eq_none_iff, List.filter_eq_nil_iff] at he
      exact absurd hkx (by simpa using he _ hk)
    | some e =>
      obtain ⟨⟨hmem, hle⟩, hbelow⟩ := hlast e he
      rcases hbelow _ hk hkx with heq | hlt
      · exact ⟨e, rfl, by rw [← heq]⟩
      · exact absurd (hmax e hmem hle) (not_le.mpr hlt)

/-- The values in ascending order of their keys: the one that counts follows the number of keys that are not above. -/
theorem getElem?_floorValue (hl : l.Pairwise fun a b => a.1 < b.1) (x : κ) :
    floorValue l x = if l.countP (fun e => e.1 ≤ x) = 0 then none
      else (l.map Prod.snd)[l.countP (fun e => e.1 ≤ x) - 1]? := by
  rw [List.countP_eq_length_filter]
  obtain ⟨rest, hrest⟩ := filter_prefix hl x
  rw [floorValue]
  generalize (l.filter fun e => e.1 ≤ x) = front at hrest
  rw [← hrest]
  by_cases hzero : front.length = 0
  · rw [if_pos hzero, List.eq_nil_of_length_eq_zero hzero]
    rfl
  · rw [if_neg hzero, List.getElem?_map, List.getElem?_append_left (by omega), List.getLast?_eq_getElem?]

end Sorted

/-- The keys of the map are those of the entries. -/
theorem forall_key_iff {es : List (κ × ν)} {p : κ → Prop} :
    (∀ e ∈ (ofList es).toList, p e.1) ↔ ∀ e ∈ es, p e.1 := by
  apply Iff.intro
  · intro h e he
    obtain ⟨v, hv⟩ := exists_lastGiven_iff.mpr ⟨e, he, rfl⟩
    exact h (e.1, v) (mem_toList_ofList.mpr hv)
  · intro h e he
    obtain ⟨a, ha, hae⟩ := exists_lastGiven_iff.mp ⟨e.2, mem_toList_ofList.mp he⟩
    exact hae ▸ h a ha

theorem floorValue_ofList_eq_some {es : List (κ × ν)} {x : κ} {v : ν} :
    floorValue (ofList es).toList x = some v ↔
      ∃ k, lastGiven es k = some v ∧ k ≤ x ∧ ∀ e ∈ es, e.1 ≤ x → e.1 ≤ k := by
  rw [floorValue_eq_some (ascending _)]
  exact exists_congr fun k => and_congr mem_toList_ofList (and_congr_right fun _ =>
    @forall_key_iff κ ν _ es fun a => a ≤ x → a ≤ k)

theorem floorValue_ofList_eq_none {es : List (κ × ν)} {x : κ} :
    floorValue (ofList es).toList x = none ↔ ∀ e ∈ es, x < e.1 := by
  rw [floorValue_eq_none]
  exact @forall_key_iff κ ν _ es fun a => x < a

end Breakpoints
