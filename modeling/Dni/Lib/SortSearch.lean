import Mathlib.Data.List.Basic
import Mathlib.Data.List.Sort

namespace SortSearch

/-- Bisection of `[i, j)`: the loop ends once the interval is empty, which at most `j - i` halvings
reach. -/
def searchLoop (f : Nat → Bool) : Nat → Nat → Nat → Nat
  | 0, i, _ => i
  | fuel + 1, i, j =>
    if i < j then
      if f ((i + j) / 2) then searchLoop f fuel i ((i + j) / 2)
      else searchLoop f fuel ((i + j) / 2 + 1) j
    else i

def search (n : Nat) (f : Nat → Bool) : Nat := searchLoop f n 0 n

theorem searchLoop_spec {f : Nat → Bool} {n : Nat}
    (mono : ∀ a b, a ≤ b → b < n → f a = true → f b = true) {fuel i j : Nat}
    (hf : j - i ≤ fuel) (hij : i ≤ j) (hjn : j ≤ n)
    (below : ∀ a < i, f a = false) (above : ∀ a, j ≤ a → a < n → f a = true) :
    searchLoop f fuel i j ≤ n ∧ (∀ a < searchLoop f fuel i j, f a = false) ∧
      ∀ a, searchLoop f fuel i j ≤ a → a < n → f a = true := by
  induction fuel generalizing i j with
  | zero =>
    have : i = j := by omega
    subst this
    exact ⟨hjn, below, above⟩
  | succ fuel ih =>
    unfold searchLoop
    split
    next hlt =>
      split
      next hm =>
        refine ih (by omega) (by omega) (by omega) below fun a ha han => ?_
        exact mono _ a ha han hm
      next hm =>
        refine ih (by omega) (by omega) hjn (fun a ha => ?_) above
        by_contra hc
        exact hm (mono a _ (by omega) (by omega) (by simpa using hc))
    next hge =>
      have : i = j := by omega
      subst this
      exact ⟨hjn, below, above⟩

theorem search_spec {f : Nat → Bool} {n : Nat}
    (mono : ∀ a b, a ≤ b → b < n → f a = true → f b = true) :
    search n f ≤ n ∧ (∀ a < search n f, f a = false) ∧
      ∀ a, search n f ≤ a → a < n → f a = true :=
  searchLoop_spec mono (by omega) (by omega) le_rfl (fun a ha => absurd ha (by omega))
    fun a ha han => absurd ha (by omega)

/-- Over a list on which `p` switches on once and stays on, the search splits the list there. -/
theorem search_split {α : Type*} (p : α → Bool) {l : List α}
    (mono : l.Pairwise fun a b => p a = true → p b = true) :
    ∃ pre post, l = pre ++ post ∧ search l.length (fun i => l[i]?.any p) = pre.length ∧
      (∀ a ∈ pre, p a = false) ∧ ∀ a ∈ post, p a = true := by
  have hmono : ∀ a b, a ≤ b → b < l.length → l[a]?.any p = true → l[b]?.any p = true := by
    intro a b hab hb ha
    have hal : a < l.length := by omega
    rw [List.getElem?_eq_getElem hal, Option.any_some] at ha
    rw [List.getElem?_eq_getElem hb, Option.any_some]
    rcases Nat.eq_or_lt_of_le hab with rfl | hlt
    · exact ha
    · exact List.pairwise_iff_getElem.mp mono a b hal hb hlt ha
  obtain ⟨hle, hbelow, habove⟩ := search_spec hmono
  refine ⟨l.take (search l.length fun i => l[i]?.any p),
    l.drop (search l.length fun i => l[i]?.any p), (List.take_append_drop _ _).symm, ?_, ?_, ?_⟩
  · rw [List.length_take, Nat.min_eq_left hle]
  · intro a ha
    obtain ⟨i, hi, rfl⟩ := List.mem_take_iff_getElem.mp ha
    have h := hbelow i (by omega)
    rwa [List.getElem?_eq_getElem (by omega), Option.any_some] at h
  · intro a ha
    obtain ⟨i, hi, rfl⟩ := List.mem_drop_iff_getElem.mp ha
    have h := habove _ (Nat.le_add_left _ i) (by omega)
    rw [List.getElem?_eq_getElem (by omega), Option.any_some] at h
    simpa [Nat.add_comm] using h

theorem pairwise_or {α : Type*} {R : α → α → Prop} {l : List α} (h : l.Pairwise R) {a b : α}
    (ha : a ∈ l) (hb : b ∈ l) (hne : b ≠ a) : R a b ∨ R b a := by
  obtain ⟨i, hi, rfl⟩ := List.mem_iff_getElem.mp ha
  obtain ⟨j, hj, rfl⟩ := List.mem_iff_getElem.mp hb
  rcases Nat.lt_trichotomy i j with hij | hij | hij
  · exact Or.inl (List.pairwise_iff_getElem.mp h i j hi hj hij)
  · subst hij; exact absurd rfl hne
  · exact Or.inr (List.pairwise_iff_getElem.mp h j i hj hi hij)

/-- A sorting routine for the strict order `less`, free in how it places equal elements. -/
structure Sorter {α : Type*} (less : α → α → Bool) where
  run : List α → List α
  perm : ∀ l, (run l).Perm l
  sorted : ∀ l, (run l).Pairwise fun a b => less b a = false

/-- Merge sort is a sorter for every strict weak order. -/
def Sorter.mergeSort {α : Type*} {less : α → α → Bool}
    (trans : ∀ a b c, less b a = false → less c b = false → less c a = false)
    (total : ∀ a b, less b a = false ∨ less a b = false) : Sorter less where
  run l := l.mergeSort fun a b => !less b a
  perm l := l.mergeSort_perm _
  sorted l := by
    have h := @List.pairwise_mergeSort α (fun a b => !less b a)
      (fun a b c hab hbc => by simpa using trans a b c (by simpa using hab) (by simpa using hbc))
      (fun a b => by simpa using total a b) l
    exact h.imp (by simp)

/-- Insertion sort is one too. -/
def Sorter.insertionSort {α : Type*} {less : α → α → Bool}
    (trans : ∀ a b c, less b a = false → less c b = false → less c a = false)
    (total : ∀ a b, less b a = false ∨ less a b = false) : Sorter less where
  run l := l.insertionSort fun a b => less b a = false
  perm l := List.perm_insertionSort _ l
  sorted l := by
    have : Std.Total fun a b : α => less b a = false := ⟨total⟩
    have : IsTrans α fun a b : α => less b a = false := ⟨fun a b c => trans a b c⟩
    exact List.pairwise_insertionSort _ l

/-- Every total order that refines the sorting order gives one. -/
def Sorter.ofLE {α : Type*} {less : α → α → Bool} (le : α → α → Bool)
    (trans : ∀ a b c, le a b = true → le b c = true → le a c = true)
    (total : ∀ a b, (le a b || le b a) = true) (refines : ∀ a b, le a b = true → less b a = false) :
    Sorter less where
  run l := l.mergeSort le
  perm l := l.mergeSort_perm le
  sorted l := (List.pairwise_mergeSort trans total l).imp fun {a b} => refines a b

/-- A loop that keeps the better of two elements ends with the best one. -/
theorem foldl_best {α : Type*} (pick : α → α → α) (le : α → α → Prop)
    (trans : ∀ {a b c}, le a b → le b c → le a c)
    (hpick : ∀ m y, (pick m y = m ∨ pick m y = y) ∧ le (pick m y) m ∧ le (pick m y) y)
    (xs : List α) (x : α) : xs.foldl pick x ∈ x :: xs ∧ ∀ b ∈ x :: xs, le (xs.foldl pick x) b := by
  induction xs generalizing x with
  | nil =>
    have hx : pick x x = x := (hpick x x).1.elim id id
    have hle := (hpick x x).2.1
    rw [hx] at hle
    simpa using hle
  | cons y xs ih =>
    obtain ⟨hm, hle⟩ := ih (pick x y)
    obtain ⟨hor, hx, hy⟩ := hpick x y
    have hfirst := hle _ (List.mem_cons_self ..)
    rw [List.foldl_cons]
    refine ⟨?_, fun b hb => ?_⟩
    · rcases List.mem_cons.mp hm with he | hm
      · rw [he]
        rcases hor with h | h <;> simp [h]
      · simp [hm]
    · rcases List.mem_cons.mp hb with rfl | hb
      · exact trans hfirst hx
      · rcases List.mem_cons.mp hb with rfl | hb
        · exact trans hfirst hy
        · exact hle b (by simp [hb])

end SortSearch
