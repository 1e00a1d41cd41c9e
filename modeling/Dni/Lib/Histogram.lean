import Dni.Lib.GoMap
import Mathlib.Algebra.GroupWithZero.Nat

namespace GoMap

variable {κ ν α : Type}

/-- A measure of the values, summed over all entries. -/
def sumBy (f : ν → Nat) (m : GoMap κ ν) : Nat := ((pairs m).map fun e => f e.2).sum

theorem sumBy_empty {f : ν → Nat} : sumBy f (∅ : GoMap κ ν) = 0 := rfl

section Values

variable {μ : Type} (f : ν → μ)

/-- The values of a map, each under a function. -/
def mapVal (m : GoMap κ ν) : GoMap κ μ where
  entries := m.entries.map fun e => ⟨e.1, f e.2⟩
  nodupKeys := by
    have hkeys : (m.entries.map fun e => (⟨e.1, f e.2⟩ : Sigma fun _ : κ => μ)).keys = m.entries.keys := by
      simp [List.keys, Function.comp_def]
    rw [List.NodupKeys, hkeys]
    exact m.nodupKeys

theorem pairs_mapVal (m : GoMap κ ν) : pairs (mapVal f m) = (pairs m).map fun e => (e.1, f e.2) := by
  simp [pairs, mapVal]

end Values

variable [DecidableEq κ]

theorem lookup_mapVal {μ : Type} (f : ν → μ) (m : GoMap κ ν) (k : κ) : (mapVal f m).lookup k = (m.lookup k).map f := by
  apply Option.ext
  intro v
  rw [← mem_pairs, pairs_mapVal, List.mem_map, Option.map_eq_some_iff]
  apply Iff.intro
  · intro ⟨e, he, heq⟩
    cases heq
    exact ⟨e.2, mem_pairs.mp he, rfl⟩
  · intro ⟨w, hw, heq⟩
    exact ⟨(k, w), mem_pairs.mpr hw, by rw [heq]⟩

/-- A missing entry counts as zero. -/
def count (m : GoMap κ Nat) (k : κ) : Nat := (m.lookup k).getD 0

def total (m : GoMap κ Nat) : Nat := sumBy id m

/-- `m[k] += 1`. -/
def bump (m : GoMap κ Nat) (k : κ) : GoMap κ Nat := m.insert k (count m k + 1)

/-- How many elements have each key. -/
def tally (key : α → κ) (xs : List α) : GoMap κ Nat := accumulate key 0 (fun n _ => n + 1) xs ∅

/-- A value of each element, collected by key in their order. -/
def group (key : α → κ) (val : α → ν) (xs : List α) : GoMap κ (List ν) :=
  accumulate key [] (fun vs x => vs ++ [val x]) xs ∅

section Sums

variable {f : ν → Nat}

theorem sumBy_insert (m : GoMap κ ν) (k : κ) (v : ν) :
    sumBy f (m.insert k v) = f v + sumBy f (m.erase k) := by
  rw [sumBy, pairs_insert, List.map_cons, List.sum_cons]
  rfl

theorem sumBy_lookup {m : GoMap κ ν} {k : κ} {v : ν} (h : m.lookup k = some v) :
    sumBy f m = f v + sumBy f (m.erase k) := by
  rw [sumBy, ((pairs_perm_erase h).map fun e => f e.2).sum_eq, List.map_cons, List.sum_cons]
  rfl

theorem erase_of_not_mem {m : GoMap κ ν} {k : κ} (h : m.lookup k = none) : (pairs (m.erase k)).Perm (pairs m) := by
  have hn : ∀ m : GoMap κ ν, (pairs m).Nodup := fun m => (pairs_nodup m).of_map _
  apply (List.perm_ext_iff_of_nodup (hn _) (hn _)).mpr
  intro ⟨x, w⟩
  rw [mem_pairs, mem_pairs, lookup_erase_if]
  split
  next hx => rw [hx, h]
  next => rfl

/-- Writing a value that measures more raises the sum by as much; a missing value measures zero. -/
theorem sumBy_insert_add {m : GoMap κ ν} {k : κ} {v : ν} {init : ν} {n : Nat} (hinit : f init = 0)
    (h : f v = f ((m.lookup k).getD init) + n) : sumBy f (m.insert k v) = sumBy f m + n := by
  rw [sumBy_insert, h]
  cases hl : m.lookup k with
  | none =>
    have herase : sumBy f (m.erase k) = sumBy f m :=
      ((erase_of_not_mem hl).map fun e : κ × ν => f e.2).sum_eq
    rw [Option.getD_none, hinit, herase]
    omega
  | some w =>
    rw [Option.getD_some, sumBy_lookup hl]
    omega

theorem sumBy_accumulate {key : α → κ} {init : ν} {add : ν → α → ν} {w : α → Nat} (hinit : f init = 0)
    (hadd : ∀ v x, f (add v x) = f v + w x) (xs : List α) (m : GoMap κ ν) :
    sumBy f (accumulate key init add xs m) = sumBy f m + (xs.map w).sum := by
  induction xs generalizing m with
  | nil => rfl
  | cons x xs ih =>
    have hstep : accumulate key init add (x :: xs) m = accumulate key init add xs
        (m.insert (key x) (add ((m.lookup (key x)).getD init) x)) := rfl
    rw [hstep, ih, sumBy_insert_add hinit (hadd _ x), List.map_cons, List.sum_cons]
    omega

end Sums

section Steps

variable (key : α → κ) (xs : List α) (x : α)

theorem accumulate_concat (init : ν) (add : ν → α → ν) (m : GoMap κ ν) :
    accumulate key init add (xs ++ [x]) m =
      (accumulate key init add xs m).insert (key x)
        (add (((accumulate key init add xs m).lookup (key x)).getD init) x) := by
  simp [accumulate]

theorem tally_concat : tally key (xs ++ [x]) = bump (tally key xs) (key x) :=
  accumulate_concat key xs x 0 _ ∅

theorem group_concat (val : α → ν) :
    group key val (xs ++ [x]) =
      (group key val xs).insert (key x) (((group key val xs).lookup (key x)).getD [] ++ [val x]) :=
  accumulate_concat key xs x [] _ ∅

end Steps

section Counts

variable {key : α → κ} {val : α → ν} {xs : List α}

theorem foldl_count (ys : List α) (n : Nat) : ys.foldl (fun n _ => n + 1) n = n + ys.length := by
  induction ys generalizing n with
  | nil => rfl
  | cons y ys ih =>
    rw [List.foldl_cons, ih, List.length_cons]
    omega

theorem foldl_collect (ys : List α) (vs : List ν) :
    ys.foldl (fun vs x => vs ++ [val x]) vs = vs ++ ys.map val := by
  induction ys generalizing vs with
  | nil => simp
  | cons y ys ih => rw [List.foldl_cons, ih, List.append_assoc, List.singleton_append, List.map_cons]

theorem lookup_tally (k : κ) :
    (tally key xs).lookup k =
      if ∃ x ∈ xs, key x = k then some (xs.filter (key · = k)).length else none := by
  rw [tally, lookup_accumulate, foldl_count]
  simp

theorem lookup_group (k : κ) :
    (group key val xs).lookup k =
      if ∃ x ∈ xs, key x = k then some ((xs.filter (key · = k)).map val) else none := by
  rw [group, lookup_accumulate, foldl_collect]
  simp

theorem count_tally (k : κ) : count (tally key xs) k = (xs.filter (key · = k)).length := by
  rw [count, lookup_tally]
  split
  next => rfl
  next h =>
    have hnil : xs.filter (key · = k) = [] := by simpa [List.filter_eq_nil_iff] using h
    rw [hnil]
    rfl

theorem total_tally : total (tally key xs) = xs.length := by
  have hone : ∀ (n : Nat) (_ : α), id (n + 1) = id n + 1 := fun _ _ => rfl
  rw [total, tally, sumBy_accumulate (f := id) rfl hone, sumBy_empty]
  simp

theorem lookup_tally_group (k : κ) :
    (tally key xs).lookup k = ((group key val xs).lookup k).map List.length := by
  rw [lookup_tally, lookup_group]
  split
  next => rw [Option.map_some, List.length_map]
  next => rfl

end Counts

section Cross

variable {ρ : Type} [DecidableEq ρ]

/-- A histogram of one key for each value of another. -/
def crossTally (row : α → ρ) (col : α → κ) (xs : List α) : GoMap ρ (GoMap κ Nat) :=
  accumulate row ∅ (fun m x => bump m (col x)) xs ∅

variable {row : α → ρ} {col : α → κ} {xs : List α}

theorem crossTally_concat (row : α → ρ) (col : α → κ) (xs : List α) (x : α) :
    crossTally row col (xs ++ [x]) = (crossTally row col xs).insert (row x)
      (bump (((crossTally row col xs).lookup (row x)).getD ∅) (col x)) :=
  accumulate_concat row xs x ∅ _ ∅

theorem lookup_crossTally (r : ρ) :
    (crossTally row col xs).lookup r =
      if ∃ x ∈ xs, row x = r then some (tally col (xs.filter (row · = r))) else none := by
  rw [crossTally, lookup_accumulate]
  rfl

theorem lookup_tally_row (col : α → κ) (r : ρ) :
    (tally row xs).lookup r = ((crossTally row col xs).lookup r).map total := by
  rw [lookup_tally, lookup_crossTally]
  split
  next => rw [Option.map_some, total_tally]
  next => rfl

theorem count_bump (m : GoMap κ Nat) (k k' : κ) : count (bump m k) k' = count m k' + if k = k' then 1 else 0 := by
  unfold count bump
  rw [lookup_insert_if]
  by_cases h : k' = k
  · subst h
    simp [count]
  · simp [h, Ne.symm h]

/-- Each column adds up to the count of its key. -/
theorem count_tally_column (row : α → ρ) (k : κ) : count (tally col xs) k = sumBy (count · k) (crossTally row col xs) := by
  have hbump : ∀ (m : GoMap κ Nat) (x : α),
      count (bump m (col x)) k = count m k + if col x = k then 1 else 0 := fun m x => count_bump m (col x) k
  have hzero : count (∅ : GoMap κ Nat) k = 0 := rfl
  rw [crossTally, sumBy_accumulate (f := (count · k)) hzero hbump, sumBy_empty, count_tally, Nat.zero_add]
  induction xs with
  | nil => rfl
  | cons x xs ih =>
    rw [List.map_cons, List.sum_cons, ← ih, List.filter_cons]
    by_cases hx : col x = k
    · simp [hx, Nat.add_comm]
    · simp [hx]

end Cross

end GoMap
