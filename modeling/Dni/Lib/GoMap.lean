import Mathlib.Data.List.AList
import Mathlib.Data.List.Dedup
import Mathlib.Algebra.BigOperators.Group.List.Basic

/-- A map of the host language: distinct keys, each with one value. -/
abbrev GoMap (κ ν : Type) := AList fun _ : κ => ν

namespace GoMap

variable {κ ν : Type}

/-- The key-value pairs in the order they happen to be stored. -/
def pairs (m : GoMap κ ν) : List (κ × ν) := m.entries.map fun e => (e.1, e.2)

theorem pairs_keys (m : GoMap κ ν) : (pairs m).map Prod.fst = m.keys := by
  simp [pairs, AList.keys, List.keys, Function.comp_def]

theorem pairs_nodup (m : GoMap κ ν) : ((pairs m).map Prod.fst).Nodup := by
  rw [pairs_keys]
  exact m.nodupKeys

/-- One way to range over a map: all its pairs, in any order. Every loop may use another one. -/
structure Order (κ ν : Type) where
  run : GoMap κ ν → List (κ × ν)
  perm : ∀ m, (run m).Perm (pairs m)

def Order.stored : Order κ ν := ⟨pairs, fun _ => List.Perm.refl _⟩

instance : Inhabited (Order κ ν) := ⟨Order.stored⟩

def Order.keys (o : Order κ ν) (m : GoMap κ ν) : List κ := (o.run m).map Prod.fst

theorem Order.keys_perm (o : Order κ ν) (m : GoMap κ ν) : (o.keys m).Perm m.keys := by
  rw [← pairs_keys]
  exact (o.perm m).map _

theorem Order.keys_nodup (o : Order κ ν) (m : GoMap κ ν) : (o.keys m).Nodup :=
  (o.keys_perm m).nodup_iff.mpr m.nodupKeys

@[simp] theorem Order.mem_keys (o : Order κ ν) (m : GoMap κ ν) {k : κ} :
    k ∈ o.keys m ↔ k ∈ m := (o.keys_perm m).mem_iff

variable [DecidableEq κ]

theorem mem_pairs {m : GoMap κ ν} {k : κ} {v : ν} : (k, v) ∈ pairs m ↔ m.lookup k = some v := by
  rw [← Option.mem_def, AList.mem_lookup_iff]
  constructor
  · intro h
    obtain ⟨⟨k', v'⟩, he, hp⟩ := List.mem_map.mp h
    cases hp
    exact he
  · intro h
    exact List.mem_map.mpr ⟨⟨k, v⟩, h, rfl⟩

@[simp] theorem Order.mem_run (o : Order κ ν) {m : GoMap κ ν} {k : κ} {v : ν} :
    (k, v) ∈ o.run m ↔ m.lookup k = some v := by
  rw [(o.perm m).mem_iff, mem_pairs]

theorem mem_iff_lookup {m : GoMap κ ν} {k : κ} : k ∈ m ↔ ∃ v, m.lookup k = some v := by
  rw [← AList.lookup_isSome, Option.isSome_iff_exists]

/-- The order that comes to one key last. -/
def Order.last (k : κ) : Order κ ν where
  run m := (pairs m).filter (fun e => !decide (e.1 = k)) ++ (pairs m).filter fun e => decide (e.1 = k)
  perm _ := List.perm_append_comm.trans (List.filter_append_perm _ _)

theorem Order.last_run {m : GoMap κ ν} {k : κ} {v : ν} (h : m.lookup k = some v) :
    ∃ es, (Order.last k).run m = es ++ [(k, v)] := by
  refine ⟨(pairs m).filter fun e => !decide (e.1 = k), ?_⟩
  have hone : ((pairs m).filter fun e => decide (e.1 = k)).Perm [(k, v)] := by
    have hn : (pairs m).Nodup := (pairs_nodup m).of_map _
    apply (List.perm_ext_iff_of_nodup (hn.filter _) (List.nodup_singleton _)).mpr
    intro ⟨x, w⟩
    simp only [List.mem_filter, mem_pairs, decide_eq_true_eq, List.mem_singleton, Prod.mk.injEq]
    apply Iff.intro
    · intro ⟨hl, hx⟩
      subst hx
      exact ⟨rfl, Option.some.inj (hl.symm.trans h)⟩
    · intro ⟨hx, hw⟩
      subst hx hw
      exact ⟨h, rfl⟩
  change _ ++ (pairs m).filter (fun e => decide (e.1 = k)) = _
  rw [List.perm_singleton.mp hone]

/-- A map that keeps the entries of another that pass a test. -/
theorem pairs_perm_filter {m m' : GoMap κ ν} {p : κ × ν → Bool}
    (h : ∀ k v, m'.lookup k = some v ↔ m.lookup k = some v ∧ p (k, v) = true) :
    (pairs m').Perm ((pairs m).filter p) := by
  have hn : ∀ m : GoMap κ ν, (pairs m).Nodup := fun m => (pairs_nodup m).of_map _
  refine (List.perm_ext_iff_of_nodup (hn m') ((hn m).filter _)).mpr fun e => ?_
  rw [List.mem_filter, mem_pairs, mem_pairs]
  exact h e.1 e.2

theorem lookup_insert_if (m : GoMap κ ν) (k k' : κ) (v : ν) :
    (m.insert k v).lookup k' = if k' = k then some v else m.lookup k' := by
  by_cases h : k' = k
  · subst h
    simp
  · simp [h, AList.lookup_insert_ne]

/-- A value for one more key of a list. -/
theorem lookup_insert_mem (m : GoMap κ ν) (k k' : κ) (ks : List κ) (v : ν) :
    (if k' ∈ ks then some v else (m.insert k v).lookup k') = if k' ∈ k :: ks then some v else m.lookup k' := by
  rw [lookup_insert_if]
  by_cases hin : k' ∈ ks
  · rw [if_pos hin, if_pos (List.mem_cons_of_mem _ hin)]
  · rw [if_neg hin]
    by_cases hk : k' = k
    · rw [if_pos hk, if_pos (hk ▸ List.mem_cons_self)]
    · rw [if_neg hk, if_neg fun h => (List.mem_cons.mp h).elim hk hin]

theorem lookup_erase_if (m : GoMap κ ν) (k k' : κ) :
    (m.erase k).lookup k' = if k' = k then none else m.lookup k' := by
  by_cases h : k' = k
  · subst h
    simp
  · simp [h, AList.lookup_erase_ne]

theorem pairs_insert (m : GoMap κ ν) (k : κ) (v : ν) :
    pairs (m.insert k v) = (k, v) :: pairs (m.erase k) := rfl

/-- The entry of one key, and what is left when it is deleted. -/
theorem pairs_perm_erase {m : GoMap κ ν} {k : κ} {v : ν} (h : m.lookup k = some v) :
    (pairs m).Perm ((k, v) :: pairs (m.erase k)) := by
  have hn : ∀ m : GoMap κ ν, (pairs m).Nodup := fun m => (pairs_nodup m).of_map _
  have hout : (k, v) ∉ pairs (m.erase k) := by
    rw [mem_pairs, AList.lookup_erase]
    exact Option.some_ne_none v ∘ Eq.symm
  apply (List.perm_ext_iff_of_nodup (hn m) (List.nodup_cons.mpr ⟨hout, hn _⟩)).mpr
  intro ⟨x, w⟩
  rw [List.mem_cons, mem_pairs, mem_pairs, Prod.mk.injEq]
  by_cases hx : x = k
  · subst hx
    rw [h, AList.lookup_erase]
    simp [eq_comm]
  · rw [AList.lookup_erase_ne hx]
    simp [hx]

/-- `for k in ks { delete(m, k) }`. -/
def eraseAll (ks : List κ) (m : GoMap κ ν) : GoMap κ ν := ks.foldl (fun m k => m.erase k) m

theorem lookup_eraseAll (ks : List κ) (m : GoMap κ ν) (k : κ) :
    (eraseAll ks m).lookup k = if k ∈ ks then none else m.lookup k := by
  induction ks generalizing m with
  | nil => simp [eraseAll]
  | cons x ks ih =>
    have hstep : eraseAll (x :: ks) m = eraseAll ks (m.erase x) := rfl
    rw [hstep, ih]
    by_cases hk : k = x
    · subst hk; simp
    · simp [hk, AList.lookup_erase_ne hk]

/-- Writing entries one after the other, where equal keys come with equal values. -/
theorem lookup_foldl_insert {α : Type} {key : α → κ} {val : α → ν} {xs : List α}
    (hfun : ∀ x ∈ xs, ∀ y ∈ xs, key x = key y → val x = val y) {m : GoMap κ ν} {k : κ} {v : ν} :
    (xs.foldl (fun m x => m.insert (key x) (val x)) m).lookup k = some v ↔
      (∃ x ∈ xs, key x = k ∧ val x = v) ∨ (∀ x ∈ xs, key x ≠ k) ∧ m.lookup k = some v := by
  induction xs generalizing m with
  | nil => simp
  | cons x xs ih =>
    have htail : ∀ y ∈ xs, ∀ z ∈ xs, key y = key z → val y = val z :=
      fun y hy z hz => hfun y (by simp [hy]) z (by simp [hz])
    rw [List.foldl_cons, ih htail]
    by_cases hx : key x = k
    · subst hx
      rw [AList.lookup_insert, Option.some.injEq]
      apply Iff.intro
      · intro h
        obtain ⟨y, hy, hk, hv⟩ | ⟨_, hv⟩ := h
        · exact Or.inl ⟨y, by simp [hy], hk, hv⟩
        · exact Or.inl ⟨x, by simp, rfl, hv⟩
      · intro h
        obtain ⟨y, hy, hk, hv⟩ | ⟨hno, _⟩ := h
        · by_cases hin : ∃ z ∈ xs, key z = key x
          · obtain ⟨z, hz, hzx⟩ := hin
            exact Or.inl ⟨z, hz, hzx, (hfun z (by simp [hz]) y hy (hzx.trans hk.symm)).trans hv⟩
          · refine Or.inr ⟨fun z hz he => hin ⟨z, hz, he⟩, ?_⟩
            rw [hfun x (by simp) y hy hk.symm, hv]
        · exact absurd rfl (hno x (by simp))
    · rw [AList.lookup_insert_ne (Ne.symm hx)]
      simp [hx]

/-- A key that the map has keeps its value. -/
def emplace (m : GoMap κ ν) (k : κ) (v : ν) : GoMap κ ν := if k ∈ m then m else m.insert k v

theorem lookup_emplace (m : GoMap κ ν) (k k' : κ) (v : ν) :
    (emplace m k v).lookup k' = (m.lookup k').or (if k' = k then some v else none) := by
  by_cases hin : k ∈ m
  · rw [emplace, if_pos hin]
    by_cases heq : k' = k
    · subst heq
      obtain ⟨w, hw⟩ := mem_iff_lookup.mp hin
      rw [hw, Option.some_or]
    · rw [if_neg heq, Option.or_none]
  · rw [emplace, if_neg hin, lookup_insert_if]
    by_cases heq : k' = k
    · subst heq
      rw [if_pos rfl, AList.lookup_eq_none.mpr hin, Option.none_or, if_pos rfl]
    · rw [if_neg heq, if_neg heq, Option.or_none]

/-- Of the entries with one key the first is kept. -/
theorem lookup_foldl_emplace {α : Type} (key : α → κ) (val : α → ν) (xs : List α) (m : GoMap κ ν) (k : κ) :
    (xs.foldl (fun m x => emplace m (key x) (val x)) m).lookup k =
      (m.lookup k).or ((xs.find? fun x => k = key x).map val) := by
  induction xs generalizing m with
  | nil => rw [List.foldl_nil, List.find?_nil, Option.map_none, Option.or_none]
  | cons x xs ih =>
    rw [List.foldl_cons, ih, lookup_emplace, Option.or_assoc, List.find?_cons]
    by_cases heq : k = key x
    · rw [if_pos heq, decide_eq_true heq]
      rfl
    · rw [if_neg heq, decide_eq_false heq, Option.none_or]

section Places

/-- The place of each key in a list; a key that is repeated stands for its last place. -/
def places (keys : List κ) : GoMap κ Nat := keys.zipIdx.foldl (fun m e => m.insert e.1 e.2) ∅

theorem lookup_places {keys : List κ} {k : κ} {pos : Nat} (h : (places keys).lookup k = some pos) :
    keys[pos]? = some k := by
  have hloop : ∀ (es : List (κ × Nat)) (m : GoMap κ Nat),
      (es.foldl (fun m e => m.insert e.1 e.2) m).lookup k = some pos → (k, pos) ∈ es ∨ m.lookup k = some pos := by
    intro es
    induction es with
    | nil => exact fun m h => Or.inr h
    | cons e es ih =>
      intro m h
      obtain hin | hm := ih _ h
      · exact Or.inl (List.mem_cons_of_mem _ hin)
      · rw [lookup_insert_if] at hm
        split at hm
        next he =>
          cases hm
          rw [he]
          exact Or.inl List.mem_cons_self
        next => exact Or.inr hm
  obtain hin | hm := hloop _ _ h
  · exact List.mem_zipIdx_iff_getElem?.mp hin
  · cases hm

theorem mem_places {keys : List κ} {k : κ} : k ∈ places keys ↔ k ∈ keys := by
  have hloop : ∀ (es : List (κ × Nat)) (m : GoMap κ Nat),
      k ∈ es.foldl (fun m e => m.insert e.1 e.2) m ↔ k ∈ es.map Prod.fst ∨ k ∈ m := by
    intro es
    induction es with
    | nil => simp
    | cons e es ih =>
      intro m
      rw [List.foldl_cons, ih, AList.mem_insert, List.map_cons, List.mem_cons, ← or_assoc,
        or_comm (a := k ∈ es.map Prod.fst)]
  rw [places, hloop, List.zipIdx_map_fst]
  simp

theorem lookup_places_of_nodup {keys : List κ} (hnd : keys.Nodup) {k : κ} {pos : Nat} (h : keys[pos]? = some k) :
    (places keys).lookup k = some pos := by
  obtain ⟨hlt, hk⟩ := List.getElem?_eq_some_iff.mp h
  obtain ⟨pos', hpos'⟩ := mem_iff_lookup.mp (mem_places.mpr (List.mem_of_getElem? h))
  obtain ⟨hlt', hk'⟩ := List.getElem?_eq_some_iff.mp (lookup_places hpos')
  rw [hpos', (List.Nodup.getElem_inj_iff hnd).mp (hk'.trans hk.symm)]

/-- There are as many places as keys exactly when no key is repeated. -/
theorem length_places_iff (keys : List κ) : (places keys).keys.length = keys.length ↔ keys.Nodup := by
  have hperm : (places keys).keys.Perm keys.dedup := by
    rw [List.perm_ext_iff_of_nodup (AList.keys_nodup _) (List.nodup_dedup _)]
    intro k
    rw [← AList.mem_keys, mem_places, List.mem_dedup]
  rw [hperm.length_eq]
  apply Iff.intro
  · intro h
    exact List.dedup_eq_self.mp ((List.dedup_sublist keys).eq_of_length h)
  · intro h
    rw [h.dedup]

end Places

section Accumulate

variable {α : Type} (key : α → κ) (init : ν) (add : ν → α → ν)

/-- The loop `m[key x] = add(m[key x], x)`; a missing entry reads as `init`. -/
def accumulate (xs : List α) (m : GoMap κ ν) : GoMap κ ν :=
  xs.foldl (fun m x => m.insert (key x) (add ((m.lookup (key x)).getD init) x)) m

theorem lookup_accumulate (xs : List α) (m : GoMap κ ν) (k : κ) :
    (accumulate key init add xs m).lookup k =
      if ∃ x ∈ xs, key x = k then
        some ((xs.filter (key · = k)).foldl add ((m.lookup k).getD init))
      else m.lookup k := by
  induction xs generalizing m with
  | nil => simp [accumulate]
  | cons x xs ih =>
    have hstep : accumulate key init add (x :: xs) m = accumulate key init add xs
        (m.insert (key x) (add ((m.lookup (key x)).getD init) x)) := rfl
    rw [hstep, ih]
    by_cases hx : key x = k
    · subst hx
      by_cases hr : ∃ y ∈ xs, key y = key x
      · simp [hr]
      · have hnil : xs.filter (key · = key x) = [] := by
          simpa [List.filter_eq_nil_iff] using hr
        simp [hr, hnil]
    · simp [hx, AList.lookup_insert_ne (Ne.symm hx)]

theorem mem_accumulate {xs : List α} {k : κ} :
    k ∈ accumulate key init add xs ∅ ↔ ∃ x ∈ xs, key x = k := by
  rw [mem_iff_lookup, lookup_accumulate]
  split <;> simp_all

theorem length_accumulate (xs : List α) :
    (accumulate key init add xs ∅).keys.length = (xs.map key).dedup.length := by
  refine List.Perm.length_eq ?_
  rw [List.perm_ext_iff_of_nodup (AList.keys_nodup _) (List.nodup_dedup _)]
  intro k
  rw [← AList.mem_keys, mem_accumulate, List.mem_dedup, List.mem_map]

end Accumulate

end GoMap
