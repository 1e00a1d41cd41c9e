import Dni.TagMap
import Mathlib.Data.Char
import Mathlib.Data.List.Lex
import Mathlib.Data.List.Perm.Subperm
import Mathlib.Data.List.Range

namespace Dni.Cpp.Utils

/-- A parsed entry with its index. -/
structure Entry where
  tag : Text
  index : Nat
  name : Text

/-- How many entries a tag has. -/
def count (tag : Text) (es : List Entry) : Nat := es.countP fun e => e.tag = tag

/-- The entries of a list of parsed fields; one without an index takes the number of the earlier entries of its tag. -/
def numbered (before : List Entry) : List (Text × Int × Text) → List Entry
  | [] => before
  | (tag, index, name) :: parsed =>
    numbered (before ++ [⟨tag, if index = -1 then count tag before else index.toNat, name⟩]) parsed

/-- All fields parse, to these entries. -/
def Entries (fields : List Text) (es : List Entry) : Prop :=
  ∃ parsed, fields.mapM ParseTagIndexName = .ok parsed ∧ es = numbered [] parsed

/-- The indexes of every tag are those from zero on, each once. -/
def Permuted (es : List Entry) : Prop :=
  ∀ tag, ((es.filter fun e => e.tag = tag).map Entry.index).Perm (List.range (count tag es))

/-- The largest index of every tag is one less than the number of its entries. -/
def Spanned (es : List Entry) : Prop :=
  ∀ tag, ((es.filter fun e => e.tag = tag).map fun e => e.index + 1).foldr max 0 = count tag es

/-- A pair of a tag and one of its indexes. -/
def InRange (es : List Entry) (tag : Text) (index : Int) : Prop := 0 ≤ index ∧ index < count tag es

/-- What the initialisation of a map and the lookups in it have to be. -/
structure TagMapRight (fields : List Text) (tag : Text) (index : Int) : Prop where
  accepts : (∃ m, TagMap.Initialize fields = .ok m) ↔ ∃ es, Entries fields es ∧ Permuted es
  onto : ∀ m es, TagMap.Initialize fields = .ok m → Entries fields es →
    ∀ p : Int, 0 ≤ p ∧ p < es.length ↔ ∃ t i, InRange es t i ∧ m.FindByTagIndex t i = p
  injective : ∀ m es, TagMap.Initialize fields = .ok m → Entries fields es →
    ∀ t i t' i', InRange es t i → InRange es t' i' → m.FindByTagIndex t i = m.FindByTagIndex t' i' → t = t' ∧ i = i'
  names : ∀ m es, TagMap.Initialize fields = .ok m → Entries fields es →
    ∀ e ∈ es, ∃ p : Nat, m.FindByTagIndex e.tag e.index = p ∧ m.names[p]? = some e.name
  others : ∀ m es, TagMap.Initialize fields = .ok m → Entries fields es →
    ¬ InRange es tag index → m.FindByTagIndex tag index = -1

/-- The inputs on which it is so: no tag has an index twice when every tag's largest index fits, and a negative index of
a known tag is the one whose id would be -1. -/
structure TagMapHolds (fields : List Text) (tag : Text) (index : Int) : Prop where
  distinct : ∀ es, Entries fields es → Spanned es → ∀ t, ((es.filter fun e => e.tag = t).map Entry.index).Nodup
  negative : ∀ es, Entries fields es → Permuted es → 0 < count tag es → index < 0 →
    index = -1 - (es.countP fun e => e.tag < tag : Nat)

section Collect

/-- The names of a tag, as the entries of it set them one after the other. -/
def namesOf (tag : Text) (es : List Entry) : List Text :=
  (es.filter fun e => e.tag = tag).foldl (fun names e => setName names e.index e.name) []

/-- The number of entries of the tags with the property. -/
def sumWhere (P : Text → Bool) (m : List (Text × TagNames)) : Nat :=
  ((m.filter fun item => P item.1).map fun item => item.2.1).sum

/-- The map holds the entries read so far. -/
structure Holds (m : List (Text × TagNames)) (es : List Entry) : Prop where
  sorted : m.Pairwise fun a b => a.1 < b.1
  lookup : ∀ tag, m.lookup tag = if 0 < count tag es then some (count tag es, namesOf tag es) else none
  sums : ∀ P : Text → Bool, sumWhere P m = es.countP fun e => P e.tag

theorem lookup_cons_if {ν : Type} (tag t : Text) (v : ν) (m : List (Text × ν)) :
    ((t, v) :: m).lookup tag = if tag = t then some v else m.lookup tag := by
  by_cases h : tag = t
  · rw [if_pos h, List.lookup_cons, beq_iff_eq.mpr h]
  · rw [if_neg h, List.lookup_cons, beq_eq_false_iff_ne.mpr h]

theorem lookup_none {ν : Type} {tag : Text} {m : List (Text × ν)} (h : ∀ p ∈ m, tag < p.1) : m.lookup tag = none := by
  induction m with
  | nil => rfl
  | cons item m ih =>
    have hlt := h item List.mem_cons_self
    rw [lookup_cons_if, if_neg hlt.ne, ih fun p hp => h p (List.mem_cons_of_mem _ hp)]

theorem lookup_updateTag {tag : Text} {f : TagNames → TagNames} {m : List (Text × TagNames)}
    (h : m.Pairwise fun a b => a.1 < b.1) (t : Text) :
    (updateTag tag f m).lookup t = if t = tag then some (f ((m.lookup tag).getD (0, []))) else m.lookup t := by
  induction m with
  | nil =>
    rw [updateTag, lookup_cons_if]
    rfl
  | cons item m ih =>
    obtain ⟨t', v'⟩ := item
    obtain ⟨hfirst, hrest⟩ := List.pairwise_cons.mp h
    rw [updateTag]
    by_cases heq : t' = tag
    · subst heq
      rw [if_pos rfl]
      simp only [lookup_cons_if, if_true, Option.getD_some]
      by_cases ht : t = t'
      · rw [if_pos ht, if_pos ht]
      · rw [if_neg ht, if_neg ht, if_neg ht]
    · rw [if_neg heq]
      by_cases hlt : tag < t'
      · have hnone : m.lookup tag = none := lookup_none fun p hp => hlt.trans (hfirst p hp)
        rw [if_pos hlt]
        simp only [lookup_cons_if, hnone, if_neg hlt.ne, Option.getD_none]
      · rw [if_neg hlt]
        simp only [lookup_cons_if, ih hrest, if_neg (Ne.symm heq)]
        by_cases ht : t = t'
        · have htag : t ≠ tag := fun h => heq (ht.symm.trans h)
          rw [if_pos ht, if_neg htag, if_pos ht]
        · rw [if_neg ht, if_neg ht]

theorem updateTag_sorted {tag : Text} {f : TagNames → TagNames} {m : List (Text × TagNames)}
    (h : m.Pairwise fun a b => a.1 < b.1) : (updateTag tag f m).Pairwise fun a b => a.1 < b.1 := by
  have hkeys : ∀ {m : List (Text × TagNames)} {p}, p ∈ updateTag tag f m → p.1 = tag ∨ ∃ q ∈ m, p.1 = q.1 := by
    intro m p hp
    induction m with
    | nil => exact Or.inl (List.mem_singleton.mp hp ▸ rfl)
    | cons item m ih =>
      obtain ⟨t', v'⟩ := item
      rw [updateTag] at hp
      split at hp
      next heq =>
        obtain hp | hp := List.mem_cons.mp hp
        · exact Or.inl (hp ▸ heq)
        · exact Or.inr ⟨p, List.mem_cons_of_mem _ hp, rfl⟩
      next =>
        split at hp
        next =>
          obtain hp | hp := List.mem_cons.mp hp
          · exact Or.inl (hp ▸ rfl)
          · exact Or.inr ⟨p, hp, rfl⟩
        next =>
          obtain hp | hp := List.mem_cons.mp hp
          · exact Or.inr ⟨_, List.mem_cons_self, hp ▸ rfl⟩
          · obtain hp | ⟨q, hq, hpq⟩ := ih hp
            · exact Or.inl hp
            · exact Or.inr ⟨q, List.mem_cons_of_mem _ hq, hpq⟩
  induction m with
  | nil => exact List.pairwise_singleton _ _
  | cons item m ih =>
    obtain ⟨t', v'⟩ := item
    obtain ⟨hfirst, hrest⟩ := List.pairwise_cons.mp h
    rw [updateTag]
    split
    next heq => exact List.pairwise_cons.mpr ⟨hfirst, hrest⟩
    next hne =>
      split
      next hlt =>
        refine List.pairwise_cons.mpr ⟨?_, h⟩
        intro p hp
        obtain hp | hp := List.mem_cons.mp hp
        · exact hp ▸ hlt
        · exact hlt.trans (hfirst p hp)
      next hnlt =>
        refine List.pairwise_cons.mpr ⟨?_, ih hrest⟩
        intro p hp
        obtain hp | ⟨q, hq, hpq⟩ := hkeys hp
        · rw [hp]
          exact ((lt_trichotomy t' tag).resolve_right fun h => h.elim hne hnlt)
        · rw [hpq]
          exact hfirst q hq

theorem sumWhere_cons (P : Text → Bool) (item : Text × TagNames) (m : List (Text × TagNames)) :
    sumWhere P (item :: m) = (if P item.1 then item.2.1 else 0) + sumWhere P m := by
  rw [sumWhere, List.filter_cons]
  by_cases h : P item.1 = true
  · rw [if_pos h, if_pos h, List.map_cons, List.sum_cons, sumWhere]
  · rw [if_neg h, if_neg h, Nat.zero_add, sumWhere]

theorem sumWhere_updateTag (P : Text → Bool) (tag : Text) (index : Int) (name : Text) (m : List (Text × TagNames)) :
    sumWhere P (updateTag tag (addField index name) m) = sumWhere P m + if P tag then 1 else 0 := by
  induction m with
  | nil =>
    rw [updateTag, sumWhere_cons]
    exact Nat.add_comm _ _
  | cons item m ih =>
    obtain ⟨t', v'⟩ := item
    rw [updateTag]
    split
    next heq =>
      subst heq
      rw [sumWhere_cons, sumWhere_cons, addField]
      dsimp only
      split
      next => omega
      next => omega
    next =>
      split
      next =>
        rw [sumWhere_cons]
        exact Nat.add_comm _ _
      next =>
        rw [sumWhere_cons, sumWhere_cons, ih]
        omega

theorem count_append (tag : Text) (es : List Entry) (e : Entry) :
    count tag (es ++ [e]) = count tag es + if e.tag = tag then 1 else 0 := by
  rw [count, List.countP_append, List.countP_singleton, count]
  simp only [decide_eq_true_iff]

theorem namesOf_append (tag : Text) (es : List Entry) (e : Entry) :
    namesOf tag (es ++ [e]) =
      if e.tag = tag then setName (namesOf tag es) e.index e.name else namesOf tag es := by
  rw [namesOf, List.filter_append, List.foldl_append, namesOf]
  by_cases h : e.tag = tag
  · simp [h]
  · simp [h]

theorem namesOf_zero {tag : Text} {es : List Entry} (h : ¬ 0 < count tag es) : namesOf tag es = [] := by
  have hnone : (es.filter fun e => decide (e.tag = tag)) = [] := by
    rw [← List.length_eq_zero_iff, ← List.countP_eq_length_filter]
    exact Nat.eq_zero_of_not_pos h
  rw [namesOf, hnone, List.foldl_nil]

/-- One field more. -/
theorem Holds.step {m : List (Text × TagNames)} {es : List Entry} (h : Holds m es) (tag : Text) (index : Int)
    (name : Text) :
    Holds (updateTag tag (addField index name) m)
      (es ++ [⟨tag, if index = -1 then count tag es else index.toNat, name⟩]) := by
  refine ⟨updateTag_sorted h.sorted, ?_, ?_⟩
  case refine_2 =>
    intro P
    rw [sumWhere_updateTag, h.sums, List.countP_append, List.countP_singleton]
  intro t
  rw [lookup_updateTag h.sorted, count_append, namesOf_append]
  by_cases ht : t = tag
  · subst ht
    have hprev : (m.lookup t).getD (0, []) = (count t es, namesOf t es) := by
      rw [h.lookup]
      by_cases hpos : 0 < count t es
      · rw [if_pos hpos, Option.getD_some]
      · rw [if_neg hpos, namesOf_zero hpos, Option.getD_none, Nat.eq_zero_of_not_pos hpos]
    rw [if_pos rfl, hprev]
    simp only [if_true, Nat.succ_pos', addField]
  · rw [if_neg ht, h.lookup]
    simp only [Ne.symm ht, if_false, Nat.add_zero]

theorem collect_holds {fields : List Text} {parsed : List (Text × Int × Text)} {m : List (Text × TagNames)}
    {es : List Entry} (h : Holds m es) (hp : fields.mapM ParseTagIndexName = .ok parsed) :
    ∃ m', collect fields m = .ok m' ∧ Holds m' (numbered es parsed) := by
  induction fields generalizing m es parsed with
  | nil =>
    cases hp
    exact ⟨m, rfl, h⟩
  | cons field fields ih =>
    rw [List.mapM_cons] at hp
    cases hfield : ParseTagIndexName field with
    | error e =>
      rw [hfield] at hp
      cases hp
    | ok triple =>
      obtain ⟨tag, index, name⟩ := triple
      rw [hfield] at hp
      cases hrest : fields.mapM ParseTagIndexName with
      | error e =>
        rw [hrest] at hp
        cases hp
      | ok rest =>
        rw [hrest] at hp
        cases hp
        obtain ⟨m', hm', hholds⟩ := ih (h.step tag index name) hrest
        refine ⟨m', ?_, hholds⟩
        rw [collect, hfield]
        exact hm'

theorem collect_fails {fields : List Text} {m m' : List (Text × TagNames)} (h : collect fields m = .ok m') :
    ∃ parsed, fields.mapM ParseTagIndexName = .ok parsed := by
  induction fields generalizing m with
  | nil => exact ⟨[], rfl⟩
  | cons field fields ih =>
    rw [collect] at h
    cases hfield : ParseTagIndexName field with
    | error e =>
      rw [hfield] at h
      cases h
    | ok triple =>
      rw [hfield] at h
      obtain ⟨parsed, hparsed⟩ := ih h
      refine ⟨triple :: parsed, ?_⟩
      rw [List.mapM_cons, hfield, hparsed]
      rfl

theorem holds_nil : Holds [] [] := ⟨List.Pairwise.nil, fun _ => rfl, fun _ => rfl⟩

end Collect

section Names

theorem length_setName (names : List Text) (index : Nat) (name : Text) :
    (setName names index name).length = max names.length (index + 1) := by
  rw [setName, List.length_set, List.length_append, List.length_replicate]
  omega

theorem getElem?_setName_self (names : List Text) (index : Nat) (name : Text) :
    (setName names index name)[index]? = some name := by
  have hlen := length_setName names index name
  rw [setName, List.length_set] at hlen
  rw [setName, List.getElem?_set_self]
  omega

theorem getElem?_setName_ne {names : List Text} {index i : Nat} {name n : Text} (hne : index ≠ i)
    (h : names[i]? = some n) : (setName names index name)[i]? = some n := by
  obtain ⟨hi, hn⟩ := List.getElem?_eq_some_iff.mp h
  rw [setName, List.getElem?_set_ne hne, List.getElem?_append_left hi, h]

theorem foldr_max_append (l : List Nat) (x : Nat) : (l ++ [x]).foldr max 0 = max (l.foldr max 0) x := by
  induction l with
  | nil => simp
  | cons y l ih => rw [List.cons_append, List.foldr_cons, List.foldr_cons, ih, max_assoc]

theorem length_namesOf (tag : Text) (es : List Entry) :
    (namesOf tag es).length = ((es.filter fun e => e.tag = tag).map fun e => e.index + 1).foldr max 0 := by
  rw [namesOf]
  induction es.filter (fun e => e.tag = tag) using List.reverseRecOn with
  | nil => rfl
  | append_singleton l e ih =>
    rw [List.foldl_append, List.foldl_cons, List.foldl_nil, length_setName, ih, List.map_append, List.map_singleton,
      foldr_max_append]

theorem getElem?_namesOf {tag : Text} {es : List Entry} (h : ((es.filter fun e => e.tag = tag).map Entry.index).Nodup)
    {e : Entry} (he : e ∈ es) (htag : e.tag = tag) : (namesOf tag es)[e.index]? = some e.name := by
  have hin : e ∈ es.filter fun e => e.tag = tag := List.mem_filter.mpr ⟨he, decide_eq_true htag⟩
  rw [namesOf]
  generalize es.filter (fun e => decide (e.tag = tag)) = l at h hin
  induction l using List.reverseRecOn with
  | nil => exact absurd hin List.not_mem_nil
  | append_singleton l e' ih =>
    rw [List.foldl_append, List.foldl_cons, List.foldl_nil]
    rw [List.map_append, List.map_singleton, List.nodup_append] at h
    obtain hin | hin := List.mem_append.mp hin
    · have hne : e'.index ≠ e.index :=
        fun heq => h.2.2 _ (List.mem_map.mpr ⟨e, hin, rfl⟩) _ List.mem_cons_self heq.symm
      exact getElem?_setName_ne hne (ih h.1 hin)
    · rw [List.mem_singleton] at hin
      subst hin
      exact getElem?_setName_self _ _ _

end Names

section Layout

/-- The blocks of the tags, one behind the other. -/
inductive Placed : Nat → List (Text × TagNames) → List (Text × TagData) → Prop
  | nil {curr : Nat} : Placed curr [] []
  | cons {curr : Nat} {tag : Text} {names : List Text} {m : List (Text × TagNames)} {data : List (Text × TagData)} :
    Placed (curr + names.length) m data →
    Placed curr ((tag, names.length, names) :: m) ((tag, ⟨curr, names.length⟩) :: data)

theorem layout_placed {curr : Nat} {m : List (Text × TagNames)} {data : List (Text × TagData)}
    (h : layout curr m = .ok data) : Placed curr m data := by
  induction m generalizing curr data with
  | nil =>
    cases h
    exact .nil
  | cons item m ih =>
    obtain ⟨tag, count, names⟩ := item
    rw [layout] at h
    split at h
    next => cases h
    next heq =>
      have hcount : count = names.length := not_not.mp heq
      subst hcount
      cases hrest : layout (curr + names.length) m with
      | error e =>
        rw [hrest] at h
        cases h
      | ok rest =>
        rw [hrest] at h
        cases h
        exact .cons (ih hrest)

theorem layout_ok_iff {curr : Nat} {m : List (Text × TagNames)} :
    (∃ data, layout curr m = .ok data) ↔ ∀ item ∈ m, item.2.1 = item.2.2.length := by
  induction m generalizing curr with
  | nil => exact iff_of_true ⟨[], rfl⟩ fun item hitem => absurd hitem List.not_mem_nil
  | cons item m ih =>
    obtain ⟨tag, count, names⟩ := item
    rw [List.forall_mem_cons, ← @ih (curr + count), layout]
    by_cases heq : count = names.length
    · rw [if_neg (not_not_intro heq)]
      apply Iff.intro
      · intro ⟨data, hdata⟩
        refine ⟨heq, ?_⟩
        cases hrest : layout (curr + count) m with
        | error e =>
          rw [hrest] at hdata
          cases hdata
        | ok rest => exact ⟨rest, rfl⟩
      · intro ⟨_, rest, hrest⟩
        rw [hrest]
        exact ⟨_, rfl⟩
    · rw [if_pos heq]
      apply iff_of_false
      · intro ⟨data, hdata⟩
        cases hdata
      · exact fun h => heq h.1

theorem sumWhere_smaller {tag : Text} {m : List (Text × TagNames)} (h : ∀ p ∈ m, tag < p.1) :
    sumWhere (· < tag) m = 0 := by
  rw [sumWhere, List.filter_eq_nil_iff.mpr]
  · rfl
  · intro p hp
    rw [decide_eq_true_iff]
    exact (h p hp).asymm

/-- A tag found behind the first item is the larger one. -/
theorem lt_of_lookup {tag t : Text} {m : List (Text × TagNames)} {v : TagNames} (hfirst : ∀ p ∈ m, t < p.1)
    (ht : tag ≠ t) (hv : m.lookup tag = some v) : t < tag := by
  by_contra hnlt
  have hgt := (lt_trichotomy t tag).resolve_left hnlt |>.resolve_left (Ne.symm ht)
  rw [lookup_none fun p hp => hgt.trans (hfirst p hp)] at hv
  cases hv

namespace Placed

variable {curr : Nat} {m : List (Text × TagNames)} {data : List (Text × TagData)}

/-- A tag's block starts behind those of the smaller tags. -/
theorem lookup (h : Placed curr m data) (hs : m.Pairwise fun a b => a.1 < b.1) (tag : Text) :
    data.lookup tag = (m.lookup tag).map fun v => ⟨curr + sumWhere (· < tag) m, v.1⟩ := by
  induction h with
  | nil => rfl
  | @cons curr t names m data h ih =>
    obtain ⟨hfirst, hrest⟩ := List.pairwise_cons.mp hs
    rw [lookup_cons_if, lookup_cons_if, ih hrest, sumWhere_cons]
    by_cases ht : tag = t
    · subst ht
      rw [if_pos rfl, if_pos rfl, sumWhere_smaller hfirst]
      simp
    · rw [if_neg ht, if_neg ht]
      cases hm : m.lookup tag with
      | none => rfl
      | some v =>
        have hlt := lt_of_lookup hfirst ht hm
        rw [Option.map_some, Option.map_some, if_pos (decide_eq_true hlt), Nat.add_assoc]

/-- The names of a tag stand in its block. -/
theorem names (h : Placed curr m data) (hs : m.Pairwise fun a b => a.1 < b.1) {tag : Text} {v : TagNames}
    (hv : m.lookup tag = some v) {i : Nat} (hi : i < v.1) :
    (m.flatMap fun item => item.2.2)[sumWhere (· < tag) m + i]? = v.2[i]? := by
  induction h with
  | nil => cases hv
  | @cons curr t names m data h ih =>
    obtain ⟨hfirst, hrest⟩ := List.pairwise_cons.mp hs
    rw [List.flatMap_cons, sumWhere_cons]
    rw [lookup_cons_if] at hv
    by_cases ht : tag = t
    · subst ht
      rw [if_pos rfl] at hv
      cases hv
      rw [sumWhere_smaller hfirst, if_neg (by simp), Nat.zero_add, List.getElem?_append_left hi]
    · rw [if_neg ht] at hv
      have hlt := lt_of_lookup hfirst ht hv
      rw [if_pos (decide_eq_true hlt), Nat.add_assoc, List.getElem?_append_right (Nat.le_add_right _ _),
        Nat.add_sub_cancel_left]
      exact ih hrest hv

/-- Every number below the total is in a block. -/
theorem covered (h : Placed curr m data) (hs : m.Pairwise fun a b => a.1 < b.1) {p : Nat}
    (hp : p < sumWhere (fun _ => true) m) :
    ∃ tag v, m.lookup tag = some v ∧ sumWhere (· < tag) m ≤ p ∧ p < sumWhere (· < tag) m + v.1 := by
  induction h generalizing p with
  | nil => exact absurd hp (Nat.not_lt_zero _)
  | @cons curr t names m data h ih =>
    obtain ⟨hfirst, hrest⟩ := List.pairwise_cons.mp hs
    rw [sumWhere_cons, if_pos rfl] at hp
    by_cases hlt : p < names.length
    · refine ⟨t, (names.length, names), ?_, ?_, ?_⟩
      · rw [lookup_cons_if, if_pos rfl]
      · rw [sumWhere_cons, sumWhere_smaller hfirst, if_neg (by simp)]
        exact Nat.zero_le _
      · exact Nat.lt_of_lt_of_le hlt (Nat.le_add_left _ _)
    · dsimp only at hp
      obtain ⟨tag, v, hv, hlo, hhi⟩ := ih hrest (show p - names.length < _ by omega)
      have ht : tag ≠ t := by
        intro heq
        rw [heq, lookup_none hfirst] at hv
        cases hv
      have hgt := lt_of_lookup hfirst ht hv
      refine ⟨tag, v, ?_, ?_, ?_⟩
      · rw [lookup_cons_if, if_neg ht, hv]
      · rw [sumWhere_cons, if_pos (decide_eq_true hgt)]
        dsimp only
        omega
      · rw [sumWhere_cons, if_pos (decide_eq_true hgt)]
        dsimp only
        omega

end Placed

end Layout

section Initialize

variable {fields : List Text} {es : List Entry}

/-- The number of entries with a smaller tag. -/
def below (tag : Text) (es : List Entry) : Nat := es.countP fun e => e.tag < tag

theorem below_add_count_le {t t' : Text} (h : t < t') (es : List Entry) : below t es + count t es ≤ below t' es := by
  induction es with
  | nil => exact le_rfl
  | cons e es ih =>
    simp only [below, count, List.countP_cons, decide_eq_true_iff] at ih ⊢
    by_cases hlt : e.tag < t
    · rw [if_pos hlt, if_neg hlt.ne, if_pos (hlt.trans h)]
      omega
    · rw [if_neg hlt]
      by_cases heq : e.tag = t
      · rw [if_pos heq, if_pos (heq ▸ h)]
        omega
      · rw [if_neg heq]
        omega

theorem entries_unique {es' : List Entry} (h : Entries fields es) (h' : Entries fields es') : es = es' := by
  obtain ⟨parsed, hp, he⟩ := h
  obtain ⟨parsed', hp', he'⟩ := h'
  rw [hp] at hp'
  cases hp'
  rw [he, he']

/-- An accepted map, by the entries of its fields. -/
structure Represents (m : TagMap) (es : List Entry) : Prop where
  lookup : ∀ tag, m.data.lookup tag = if 0 < count tag es then some ⟨below tag es, count tag es⟩ else none
  names : ∀ tag i, i < count tag es → m.names[below tag es + i]? = (namesOf tag es)[i]?
  covered : ∀ p < es.length, ∃ tag, below tag es ≤ p ∧ p < below tag es + count tag es

theorem lookup_of_mem {ν : Type} {m : List (Text × ν)} (hs : m.Pairwise fun a b => a.1 < b.1) {tag : Text} {v : ν}
    (h : (tag, v) ∈ m) : m.lookup tag = some v := by
  induction m with
  | nil => exact absurd h List.not_mem_nil
  | cons item m ih =>
    obtain ⟨t, w⟩ := item
    obtain ⟨hfirst, hrest⟩ := List.pairwise_cons.mp hs
    rw [lookup_cons_if]
    obtain heq | h := List.mem_cons.mp h
    · cases heq
      rw [if_pos rfl]
    · rw [if_neg (hfirst _ h).ne', ih hrest h]

theorem mem_of_lookup {ν : Type} {m : List (Text × ν)} {tag : Text} {v : ν} (h : m.lookup tag = some v) :
    (tag, v) ∈ m := by
  induction m with
  | nil => cases h
  | cons item m ih =>
    obtain ⟨t, w⟩ := item
    rw [lookup_cons_if] at h
    by_cases ht : tag = t
    · rw [if_pos ht] at h
      cases h
      rw [ht]
      exact List.mem_cons_self
    · rw [if_neg ht] at h
      exact List.mem_cons_of_mem _ (ih h)

/-- The check of the counts against the names. -/
theorem Holds.spanned_iff {m : List (Text × TagNames)} (h : Holds m es) :
    Spanned es ↔ ∀ item ∈ m, item.2.1 = item.2.2.length := by
  apply Iff.intro
  · intro hs item hitem
    obtain ⟨tag, v⟩ := item
    have hl := lookup_of_mem h.sorted hitem
    rw [h.lookup] at hl
    split at hl
    next =>
      cases hl
      dsimp only
      rw [length_namesOf]
      exact (hs tag).symm
    next => cases hl
  · intro hall tag
    rw [← length_namesOf]
    by_cases hpos : 0 < count tag es
    · have hl := h.lookup tag
      rw [if_pos hpos] at hl
      exact (hall _ (mem_of_lookup hl)).symm
    · rw [namesOf_zero hpos]
      exact (Nat.eq_zero_of_not_pos hpos).symm

/-- The fields are accepted when they parse and the largest indexes fit the numbers of entries. -/
theorem initialize_iff : (∃ m, TagMap.Initialize fields = .ok m) ↔ ∃ es, Entries fields es ∧ Spanned es := by
  apply Iff.intro
  · intro ⟨m, hm⟩
    unfold TagMap.Initialize at hm
    cases hc : collect fields [] with
    | error e =>
      rw [hc] at hm
      cases hm
    | ok c =>
      rw [hc, ok_bind] at hm
      obtain ⟨parsed, hp⟩ := collect_fails hc
      obtain ⟨c', hc', hholds⟩ := collect_holds holds_nil hp
      rw [hc] at hc'
      cases hc'
      refine ⟨numbered [] parsed, ⟨parsed, hp, rfl⟩, hholds.spanned_iff.mpr ?_⟩
      cases hl : layout 0 c with
      | error e =>
        rw [hl, error_bind] at hm
        cases hm
      | ok data => exact layout_ok_iff.mp ⟨data, hl⟩
  · intro ⟨es, ⟨parsed, hp, hes⟩, hs⟩
    obtain ⟨c, hc, hholds⟩ := collect_holds holds_nil hp
    rw [← hes] at hholds
    have hlayout : ∃ data, layout 0 c = .ok data := layout_ok_iff.mpr (hholds.spanned_iff.mp hs)
    obtain ⟨data, hdata⟩ := hlayout
    refine ⟨⟨data, c.flatMap fun item => item.2.2⟩, ?_⟩
    unfold TagMap.Initialize
    rw [hc, ok_bind, hdata, ok_bind]

theorem initialize_represents {m : TagMap} (h : TagMap.Initialize fields = .ok m) (he : Entries fields es) :
    Represents m es := by
  obtain ⟨parsed, hp, hes⟩ := he
  obtain ⟨c, hc, hholds⟩ := collect_holds holds_nil hp
  rw [← hes] at hholds
  unfold TagMap.Initialize at h
  rw [hc, ok_bind] at h
  cases hdata : layout 0 c with
  | error e =>
    rw [hdata, error_bind] at h
    cases h
  | ok data =>
    rw [hdata, ok_bind] at h
    cases h
    have hplaced := layout_placed hdata
    have hbelow : ∀ tag, sumWhere (· < tag) c = below tag es := fun tag => hholds.sums _
    refine ⟨?_, ?_, ?_⟩
    · intro tag
      dsimp only
      rw [hplaced.lookup hholds.sorted, hholds.lookup, hbelow, Nat.zero_add]
      split
      next => rfl
      next => rfl
    · intro tag i hi
      have hpos : 0 < count tag es := Nat.zero_lt_of_lt hi
      have hlookup : c.lookup tag = some (count tag es, namesOf tag es) := by rw [hholds.lookup, if_pos hpos]
      rw [← hbelow]
      exact hplaced.names hholds.sorted hlookup hi
    · intro p hp
      have htotal : sumWhere (fun _ => true) c = es.length := by
        rw [hholds.sums]
        exact congrFun List.countP_true es
      rw [← htotal] at hp
      obtain ⟨tag, v, hv, hlo, hhi⟩ := hplaced.covered hholds.sorted hp
      rw [hholds.lookup] at hv
      rw [hbelow] at hlo hhi
      split at hv
      next =>
        cases hv
        exact ⟨tag, hlo, hhi⟩
      next => cases hv

end Initialize

section Right

variable {fields : List Text} {es : List Entry}

theorem below_add_count_le_length (tag : Text) (es : List Entry) : below tag es + count tag es ≤ es.length := by
  induction es with
  | nil => exact le_rfl
  | cons e es ih =>
    simp only [below, count, List.countP_cons, decide_eq_true_iff, List.length_cons] at ih ⊢
    by_cases hlt : e.tag < tag
    · rw [if_pos hlt, if_neg hlt.ne]
      omega
    · rw [if_neg hlt]
      split
      next => omega
      next => omega

theorem le_foldr_max {l : List Nat} {x : Nat} (h : x ∈ l) : x ≤ l.foldr max 0 := by
  induction l with
  | nil => exact absurd h List.not_mem_nil
  | cons y l ih =>
    rw [List.foldr_cons]
    obtain rfl | h := List.mem_cons.mp h
    · exact le_max_left _ _
    · exact (ih h).trans (le_max_right _ _)

theorem foldr_max_range (n : Nat) : ((List.range n).map (· + 1)).foldr max 0 = n := by
  induction n with
  | zero => rfl
  | succ n ih =>
    rw [List.range_succ, List.map_append, List.map_singleton, foldr_max_append, ih]
    omega

theorem Permuted.spanned (h : Permuted es) : Spanned es := by
  intro tag
  have hperm := (h tag).map (· + 1)
  rw [List.map_map] at hperm
  exact (hperm.foldr_eq 0).trans (foldr_max_range _)

theorem Permuted.nodup (h : Permuted es) (tag : Text) : ((es.filter fun e => e.tag = tag).map Entry.index).Nodup :=
  (h tag).nodup_iff.mpr List.nodup_range

/-- Indexes that differ and end in the last place take every place. -/
theorem Spanned.permuted (h : Spanned es) (hd : ∀ t, ((es.filter fun e => e.tag = t).map Entry.index).Nodup) :
    Permuted es := by
  intro tag
  have hsub : (es.filter fun e => e.tag = tag).map Entry.index ⊆ List.range (count tag es) := by
    intro i hi
    obtain ⟨e, he, rfl⟩ := List.mem_map.mp hi
    have hmem : e.index + 1 ∈ (es.filter fun e => e.tag = tag).map fun e => e.index + 1 :=
      List.mem_map.mpr ⟨e, he, rfl⟩
    have hle := le_foldr_max hmem
    rw [h tag] at hle
    exact List.mem_range.mpr hle
  apply ((hd tag).subperm hsub).perm_of_length_le
  rw [List.length_range, List.length_map, count, List.countP_eq_length_filter]

theorem Permuted.index_lt (h : Permuted es) {e : Entry} (he : e ∈ es) : e.index < count e.tag es := by
  rw [← List.mem_range, ← (h e.tag).mem_iff]
  exact List.mem_map.mpr ⟨e, List.mem_filter.mpr ⟨he, decide_eq_true rfl⟩, rfl⟩

namespace Represents

variable {m : TagMap}

/-- A negative index of a known tag is not refused. -/
theorem find (h : Represents m es) (tag : Text) (index : Int) :
    m.FindByTagIndex tag index = if 0 < count tag es ∧ index < count tag es then below tag es + index else -1 := by
  rw [TagMap.FindByTagIndex, h.lookup]
  by_cases hpos : 0 < count tag es
  · rw [if_pos hpos]
    dsimp only
    by_cases hlt : index < count tag es
    · rw [if_neg (Int.not_le.mpr hlt), if_pos ⟨hpos, hlt⟩]
    · rw [if_pos (Int.not_lt.mp hlt), if_neg fun h => hlt h.2]
  · rw [if_neg hpos, if_neg fun h => hpos h.1]

theorem find_inRange (h : Represents m es) {tag : Text} {index : Int} (hin : InRange es tag index) :
    m.FindByTagIndex tag index = below tag es + index := by
  obtain ⟨hlo, hhi⟩ := hin
  have hpos : 0 < count tag es := by omega
  rw [h.find, if_pos ⟨hpos, hhi⟩]

theorem onto (h : Represents m es) (p : Int) :
    0 ≤ p ∧ p < es.length ↔ ∃ t i, InRange es t i ∧ m.FindByTagIndex t i = p := by
  apply Iff.intro
  · intro ⟨hlo, hhi⟩
    obtain ⟨tag, hge, hlt⟩ := h.covered p.toNat (by omega)
    have hin : InRange es tag (p - below tag es) := And.intro (by omega) (by omega)
    refine ⟨tag, p - below tag es, hin, ?_⟩
    rw [h.find_inRange hin]
    omega
  · intro ⟨tag, index, hin, hfind⟩
    rw [h.find_inRange hin] at hfind
    have hle := below_add_count_le_length tag es
    obtain ⟨hlo, hhi⟩ := hin
    omega

theorem injective (h : Represents m es) {t t' : Text} {i i' : Int} (hin : InRange es t i) (hin' : InRange es t' i')
    (heq : m.FindByTagIndex t i = m.FindByTagIndex t' i') : t = t' ∧ i = i' := by
  rw [h.find_inRange hin, h.find_inRange hin'] at heq
  obtain ⟨hlo, hhi⟩ := hin
  obtain ⟨hlo', hhi'⟩ := hin'
  obtain hlt | rfl | hgt := lt_trichotomy t t'
  · have hle := below_add_count_le hlt es
    omega
  · exact ⟨rfl, by omega⟩
  · have hle := below_add_count_le hgt es
    omega

theorem nameAt (h : Represents m es) (hp : Permuted es) {e : Entry} (he : e ∈ es) :
    ∃ p : Nat, m.FindByTagIndex e.tag e.index = p ∧ m.names[p]? = some e.name := by
  have hlt := hp.index_lt he
  have hin : InRange es e.tag e.index := And.intro (by omega) (by omega)
  refine ⟨below e.tag es + e.index, ?_, ?_⟩
  · rw [h.find_inRange hin]
    omega
  · rw [h.names _ _ hlt]
    exact getElem?_namesOf (hp.nodup _) he rfl

theorem others (h : Represents m es) {tag : Text} {index : Int}
    (hneg : 0 < count tag es → index < 0 → index = -1 - (below tag es : Nat)) (hin : ¬ InRange es tag index) :
    m.FindByTagIndex tag index = -1 := by
  rw [h.find]
  split
  next hcond =>
    obtain ⟨hpos, hlt⟩ := hcond
    have hlow : index < 0 := Int.not_le.mp fun hge => hin ⟨hge, hlt⟩
    have hvalue := hneg hpos hlow
    omega
  next => rfl

end Represents

/-- The map is right exactly where no duplicate makes up for a gap and no negative index reaches an id. -/
theorem tagMap_right_iff (fields : List Text) (tag : Text) (index : Int) :
    TagMapRight fields tag index ↔ TagMapHolds fields tag index := by
  apply Iff.intro
  · intro h
    refine ⟨?_, ?_⟩
    · intro es he hs
      obtain ⟨es', he', hp⟩ := h.accepts.mp (initialize_iff.mpr ⟨es, he, hs⟩)
      exact (entries_unique he' he ▸ hp).nodup
    · intro es he hp hpos hlow
      obtain ⟨m, hm⟩ := h.accepts.mpr ⟨es, he, hp⟩
      have hout : ¬ InRange es tag index := fun hin => Int.not_le.mpr hlow hin.1
      have hfind := h.others m es hm he hout
      have hlt : index < count tag es := by omega
      rw [(initialize_represents hm he).find, if_pos ⟨hpos, hlt⟩] at hfind
      rw [below] at hfind
      omega
  · intro h
    have hpermuted : ∀ m es, TagMap.Initialize fields = .ok m → Entries fields es → Permuted es := by
      intro m es hm he
      obtain ⟨es', he', hs⟩ := initialize_iff.mp ⟨m, hm⟩
      exact (entries_unique he' he ▸ hs).permuted (h.distinct es he (entries_unique he' he ▸ hs))
    refine ⟨?_, ?_, ?_, ?_, ?_⟩
    · rw [initialize_iff]
      apply exists_congr
      intro es
      exact and_congr_right fun he => ⟨fun hs => hs.permuted (h.distinct es he hs), Permuted.spanned⟩
    · intro m es hm he
      exact (initialize_represents hm he).onto
    · intro m es hm he t i t' i' hin hin' heq
      exact (initialize_represents hm he).injective hin hin' heq
    · intro m es hm he e hmem
      exact (initialize_represents hm he).nameAt (hpermuted m es hm he) hmem
    · intro m es hm he hout
      exact (initialize_represents hm he).others (h.negative es he (hpermuted m es hm he)) hout

/-- Index 0 twice and index 2: three entries, and the largest index is two. -/
def gapFields : List Text := [['T', ':', '0', ':', 'a'], ['T', ':', '0', ':', 'b'], ['T', ':', '2', ':', 'c']]

theorem tagMap_accepts_gap : ¬ TagMapRight gapFields ['T'] 0 := by
  intro h
  have hm : TagMap.Initialize gapFields = .ok ⟨[(['T'], ⟨0, 3⟩)], [['b'], [], ['c']]⟩ := by
    decide +kernel
  have hparsed : gapFields.mapM ParseTagIndexName = .ok [(['T'], 0, ['a']), (['T'], 0, ['b']), (['T'], 2, ['c'])] := by
    decide +kernel
  obtain ⟨es, ⟨parsed, hp, hes⟩, hperm⟩ := h.accepts.mp ⟨_, hm⟩
  rw [hparsed] at hp
  cases hp
  subst hes
  have hnodup := hperm.nodup ['T']
  revert hnodup
  decide

end Right

end Dni.Cpp.Utils
