import Dni.Lib.GoMap
import Dni.Lib.Digits

namespace Dni.FlowManager

open GoMap

abbrev Text := List Char

/-- `fmt.Sprintf("%d", n)`. -/
def itoa : Int → Text
  | .ofNat n => Nat.toDigits 10 n
  | .negSucc n => '-' :: Nat.toDigits 10 (n + 1)

/-- `strconv.Atoi` where an `int` has 64 bits. -/
def atoi (s : Text) : Option Int :=
  let (negative, digits) := match s with
    | '-' :: s => (true, s)
    | '+' :: s => (false, s)
    | s => (false, s)
  if digits = [] ∨ ¬ digits.all Char.isDigit then none
  else
    let n := digits.foldl (fun n d => 10 * n + (d.toNat - '0'.toNat)) 0
    let value : Int := if negative then -(n : Int) else n
    if -2 ^ 63 ≤ value ∧ value < 2 ^ 63 then some value else none

inductive FormatError
  | atoi (num : Text)
  | parts
deriving DecidableEq

/-- What a stream is declared with. -/
structure TagIndexName where
  tag : Text
  index : Int
  name : Text

/-- `fmt.Sprintf("%s:%d", tag, index)`. -/
def sprintf (tag : Text) (index : Int) : Text := tag ++ ':' :: itoa index

def TagIndexName.tagIndex (t : TagIndexName) : Text := sprintf t.tag t.index

/-- The variables of GetTagIndexName when it returns without an error. -/
def tagIndexName (stream : Text) (pos : Nat) : Except FormatError TagIndexName :=
  match stream.splitOn ':' with
  | [tag, num, name] =>
    match atoi num with
    | none => .error (.atoi num)
    | some index => .ok ⟨tag, index, name⟩
  | [tag, name] => .ok ⟨tag, 0, name⟩
  | [name] => .ok ⟨[], pos, name⟩
  | _ => .error .parts

def getTagIndexName (stream : Text) (pos : Nat) : Except FormatError (Text × Text) :=
  (tagIndexName stream pos).map fun t => (t.tagIndex, t.name)

structure StreamUnit where
  name : List Text
  tagIndexMap : GoMap Text Nat
  nameMap : GoMap Text Nat

def newStreamUnitLoop (id : Nat) (su : StreamUnit) : List Text → Except FormatError StreamUnit
  | [] => .ok su
  | stream :: streams =>
    match getTagIndexName stream id with
    | .error err => .error err
    | .ok (tagindex, name) =>
      newStreamUnitLoop (id + 1)
        ⟨su.name ++ [name], su.tagIndexMap.insert tagindex id, su.nameMap.insert name id⟩ streams

def newStreamUnit (streams : List Text) : Except FormatError StreamUnit :=
  newStreamUnitLoop 0 ⟨[], ∅, ∅⟩ streams

/-- A slot that is not nil is known by its address. -/
structure DataSlice where
  tagIndexMap : GoMap Text Nat
  nameMap : GoMap Text Nat
  names : List Text
  values : List (Option Nat)
  size : Nat

/-- The loop of NewDataSlice; `next` is the address of the next slot that is made. An index out of range
is a panic. -/
def fill : List (Text × Nat) → List (Option Nat) → Nat → Option (List (Option Nat) × Nat)
  | [], values, next => some (values, next)
  | (_, pos) :: es, values, next =>
    if pos < values.length then fill es (values.set pos (some next)) (next + 1) else none

def newDataSlice (ord : Order Text Nat) (streamUnit : StreamUnit) (next : Nat) : Option (DataSlice × Nat) :=
  let size := streamUnit.tagIndexMap.keys.length
  (fill (ord.run streamUnit.nameMap) (List.replicate size none) next).map fun (values, next) =>
    (⟨streamUnit.tagIndexMap, streamUnit.nameMap, streamUnit.name, values, size⟩, next)

namespace DataSlice

/-- A pair that was not declared gets a slot of its own. -/
def get (ds : DataSlice) (tag : Text) (index : Int) (next : Nat) : Option (Option Nat × Nat) :=
  if tag = [] then
    if index < 0 then none else (ds.values[index.toNat]?).map fun v => (v, next)
  else
    match ds.tagIndexMap.lookup (sprintf tag index) with
    | none => some (some next, next + 1)
    | some pos => if pos ≥ ds.size then some (some next, next + 1) else (ds.values[pos]?).map fun v => (v, next)

def getByName (ds : DataSlice) (name : Text) : Option (Option Nat × Bool) :=
  match ds.nameMap.lookup name with
  | none => some (none, false)
  | some pos => (ds.values[pos]?).map fun v => (v, true)

end DataSlice

/-- The stream that is declared at a place. -/
def declared (streams : List Text) (i : Nat) : Option TagIndexName :=
  (streams[i]?).bind fun stream => (tagIndexName stream i).toOption

/-- Every stream has a slot of its own that all look-ups find; a slot that they make adds to `next`. -/
def SlotsRight (streams : List Text) (su : StreamUnit) (ord : Order Text Nat) (next : Nat) : Prop :=
  ∃ ds next', newDataSlice ord su next = some (ds, next') ∧ ds.values.length = streams.length ∧
    none ∉ ds.values ∧ ds.values.Nodup ∧
    ∀ i t, declared streams i = some t → ∃ v, ds.values[i]? = some (some v) ∧
      ds.get t.tag t.index next' = some (some v, next') ∧ ds.getByName t.name = some (some v, true)

/-- No pair of tag and index and no name is declared twice, and a stream without a tag has its place as
its index. -/
structure Separate (streams : List Text) : Prop where
  keys : ∀ i j t u, declared streams i = some t → declared streams j = some u → t.tag = u.tag →
    t.index = u.index → i = j
  names : ∀ i j t u, declared streams i = some t → declared streams j = some u → t.name = u.name → i = j
  untagged : ∀ i t, declared streams i = some t → t.tag = [] → t.index = i

section Texts

theorem itoa_inj {m n : Int} (h : itoa m = itoa n) : m = n := by
  have hminus : ∀ i j : Nat, Nat.toDigits 10 i ≠ '-' :: Nat.toDigits 10 j := fun i j heq =>
    Digits.not_mem_toDigits (c := '-') (by decide) i (heq ▸ List.mem_cons_self)
  cases m with
  | ofNat m =>
    cases n with
    | ofNat n => exact congrArg Int.ofNat (Digits.toDigits_inj h)
    | negSucc n => exact absurd h (hminus _ _)
  | negSucc m =>
    cases n with
    | ofNat n => exact absurd h.symm (hminus _ _)
    | negSucc n => exact congrArg Int.negSucc (Nat.succ_inj.mp (Digits.toDigits_inj (List.cons.inj h).2))

/-- Tags have no colon, so that the text of the two tells them. -/
theorem sprintf_inj {tag tag' : Text} {index index' : Int} (ht : ':' ∉ tag) (ht' : ':' ∉ tag')
    (h : sprintf tag index = sprintf tag' index') : tag = tag' ∧ index = index' := by
  obtain ⟨htag, hindex⟩ := Digits.first_inj ht ht' h
  exact ⟨htag, itoa_inj hindex⟩

theorem tag_of_tagIndexName {stream : Text} {pos : Nat} {t : TagIndexName} (h : tagIndexName stream pos = .ok t) :
    ':' ∉ t.tag := by
  have hpiece : ∀ piece, piece ∈ stream.splitOn ':' → ':' ∉ piece :=
    fun _ hmem => Digits.not_mem_of_mem_splitOn hmem
  unfold tagIndexName at h
  split at h
  next tag num name hsplit =>
    split at h
    next => cases h
    next =>
      cases h
      exact hpiece tag (by simp [hsplit])
  next tag name hsplit =>
    cases h
    exact hpiece tag (by simp [hsplit])
  next =>
    cases h
    exact List.not_mem_nil
  next => cases h

end Texts

section Units

/-- What the loop records, when no stream is in a wrong format. -/
theorem newStreamUnitLoop_ok {streams : List Text} {id : Nat} {su su' : StreamUnit}
    (h : newStreamUnitLoop id su streams = .ok su') :
    ∃ ts : List TagIndexName,
      List.Forall₂ (fun e t => tagIndexName e.1 e.2 = .ok t) (streams.zipIdx id) ts ∧
      su'.tagIndexMap = ((ts.map TagIndexName.tagIndex).zipIdx id).foldl (fun m e => m.insert e.1 e.2) su.tagIndexMap ∧
      su'.nameMap = ((ts.map TagIndexName.name).zipIdx id).foldl (fun m e => m.insert e.1 e.2) su.nameMap := by
  induction streams generalizing id su with
  | nil =>
    cases h
    exact ⟨[], .nil, rfl, rfl⟩
  | cons stream streams ih =>
    unfold newStreamUnitLoop getTagIndexName at h
    cases ht : tagIndexName stream id with
    | error err =>
      rw [ht] at h
      cases h
    | ok t =>
      rw [ht] at h
      obtain ⟨ts, hts, hkeys, hnames⟩ := ih h
      exact ⟨t :: ts, .cons ht hts, hkeys, hnames⟩

/-- The streams of an accepted unit, in their order. -/
structure Declares (streams : List Text) (su : StreamUnit) (ts : List TagIndexName) : Prop where
  length : ts.length = streams.length
  streams : ∀ i, declared streams i = ts[i]?
  tagged : ∀ t ∈ ts, ':' ∉ t.tag
  tagIndexMap : su.tagIndexMap = places (ts.map TagIndexName.tagIndex)
  nameMap : su.nameMap = places (ts.map TagIndexName.name)

theorem newStreamUnit_declares {streams : List Text} {su : StreamUnit} (h : newStreamUnit streams = .ok su) :
    ∃ ts, Declares streams su ts := by
  obtain ⟨ts, hts, hkeys, hnames⟩ := newStreamUnitLoop_ok h
  have hlen : ts.length = streams.length := by
    have hlen := hts.length_eq
    rw [List.length_zipIdx] at hlen
    exact hlen.symm
  have hget : ∀ i t, ts[i]? = some t → ∃ stream, streams[i]? = some stream ∧ tagIndexName stream i = .ok t := by
    intro i t hi
    obtain ⟨hlt, ht⟩ := List.getElem?_eq_some_iff.mp hi
    have hstream : i < streams.length := hlen ▸ hlt
    have hall := (List.forall₂_iff_get.mp hts).2 i (by simpa using hstream) hlt
    refine ⟨streams[i], List.getElem?_eq_getElem hstream, ?_⟩
    simpa [ht] using hall
  refine ⟨ts, hlen, ?_, ?_, hkeys, hnames⟩
  · intro i
    cases hi : ts[i]? with
    | none =>
      have hout : streams[i]? = none := by
        rw [List.getElem?_eq_none_iff] at hi ⊢
        omega
      rw [declared, hout, Option.bind_none]
    | some t =>
      obtain ⟨stream, hstream, ht⟩ := hget i t hi
      rw [declared, hstream, Option.bind_some, ht]
      rfl
  · intro t ht
    obtain ⟨i, hi⟩ := List.mem_iff_getElem?.mp ht
    obtain ⟨stream, _, hok⟩ := hget i t hi
    exact tag_of_tagIndexName hok

end Units

section Slots

/-- Slots that are all older than the next one, each at one place. -/
structure Fresh (values : List (Option Nat)) (next : Nat) : Prop where
  older : ∀ v, some v ∈ values → v < next
  own : ∀ i j v : Nat, values[i]? = some (some v) → values[j]? = some (some v) → i = j

theorem Fresh.set {values : List (Option Nat)} {next : Nat} (h : Fresh values next) (pos : Nat) :
    Fresh (values.set pos (some next)) (next + 1) := by
  have hcases : ∀ i v, (values.set pos (some next))[i]? = some (some v) →
      i = pos ∧ v = next ∨ i ≠ pos ∧ values[i]? = some (some v) := by
    intro i v hi
    rw [List.getElem?_set] at hi
    by_cases hp : pos = i
    · rw [if_pos hp] at hi
      split at hi
      next =>
        cases hi
        exact Or.inl ⟨hp.symm, rfl⟩
      next => cases hi
    · rw [if_neg hp] at hi
      exact Or.inr ⟨Ne.symm hp, hi⟩
  refine ⟨?_, ?_⟩
  · intro v hv
    obtain ⟨i, hi⟩ := List.mem_iff_getElem?.mp hv
    obtain ⟨_, heq⟩ | ⟨_, hi⟩ := hcases i v hi
    · omega
    · have := h.older v (List.mem_of_getElem? hi)
      omega
  · intro i j v hi hj
    obtain ⟨hip, hv⟩ | ⟨hip, hi⟩ := hcases i v hi <;> obtain ⟨hjp, hv'⟩ | ⟨hjp, hj⟩ := hcases j v hj
    · rw [hip, hjp]
    · exact absurd (h.older v (List.mem_of_getElem? hj)) (by omega)
    · exact absurd (h.older v (List.mem_of_getElem? hi)) (by omega)
    · exact h.own i j v hi hj

/-- When all the places are in range, each of them gets a slot of its own. -/
theorem fill_spec {es : List (Text × Nat)} {values : List (Option Nat)} {next : Nat}
    (hin : ∀ e ∈ es, e.2 < values.length) (hf : Fresh values next) :
    ∃ values' next', fill es values next = some (values', next') ∧ Fresh values' next' ∧
      ∀ i : Nat, (∃ v, values'[i]? = some (some v)) ∨ values'[i]? = values[i]? ∧ ∀ e ∈ es, e.2 ≠ i := by
  induction es generalizing values next with
  | nil => exact ⟨values, next, rfl, hf, fun i => Or.inr ⟨rfl, by simp⟩⟩
  | cons e es ih =>
    have hpos : e.2 < values.length := hin e List.mem_cons_self
    have hin' : ∀ e' ∈ es, e'.2 < (values.set e.2 (some next)).length := by
      intro e' he
      rw [List.length_set]
      exact hin e' (List.mem_cons_of_mem _ he)
    obtain ⟨values', next', hfill, hf', hset⟩ := ih hin' (hf.set e.2)
    refine ⟨values', next', ?_, hf', ?_⟩
    · rw [fill, if_pos hpos, hfill]
    · intro i
      obtain hsome | ⟨hsame, hno⟩ := hset i
      · exact Or.inl hsome
      · by_cases hp : e.2 = i
        · subst hp
          exact Or.inl ⟨next, by rw [hsame, List.getElem?_set_self hpos]⟩
        · refine Or.inr ⟨by rw [hsame, List.getElem?_set_ne hp], ?_⟩
          rw [List.forall_mem_cons]
          exact ⟨hp, hno⟩

theorem length_fill {es : List (Text × Nat)} {values values' : List (Option Nat)} {next next' : Nat}
    (h : fill es values next = some (values', next')) : values'.length = values.length := by
  induction es generalizing values next with
  | nil =>
    cases h
    rfl
  | cons e es ih =>
    unfold fill at h
    split at h
    next => rw [ih h, List.length_set]
    next => cases h

/-- What NewDataSlice makes, when it does not panic. -/
theorem newDataSlice_ok {ord : Order Text Nat} {su : StreamUnit} {next next' : Nat} {ds : DataSlice}
    (h : newDataSlice ord su next = some (ds, next')) :
    ∃ values, fill (ord.run su.nameMap) (List.replicate su.tagIndexMap.keys.length none) next = some (values, next') ∧
      ds = ⟨su.tagIndexMap, su.nameMap, su.name, values, su.tagIndexMap.keys.length⟩ := by
  obtain ⟨⟨values, after⟩, hfill, heq⟩ := Option.map_eq_some_iff.mp h
  cases heq
  exact ⟨values, hfill, rfl⟩

end Slots

theorem nodup_map_iff {α β : Type} (f : α → β) (xs : List α) :
    (xs.map f).Nodup ↔ ∀ (i j : Nat) x y, xs[i]? = some x → xs[j]? = some y → f x = f y → i = j := by
  apply Iff.intro
  · intro h i j x y hi hj hxy
    obtain ⟨hilt, hix⟩ := List.getElem?_eq_some_iff.mp hi
    obtain ⟨hjlt, hjy⟩ := List.getElem?_eq_some_iff.mp hj
    have hil : i < (xs.map f).length := by rwa [List.length_map]
    have hjl : j < (xs.map f).length := by rwa [List.length_map]
    have hget : (xs.map f)[i] = (xs.map f)[j] := by simp [hix, hjy, hxy]
    exact (List.Nodup.getElem_inj_iff h).mp hget
  · intro h
    apply List.nodup_iff_injective_getElem.mpr
    intro i j hij
    have hi : i.val < xs.length := by simpa using i.isLt
    have hj : j.val < xs.length := by simpa using j.isLt
    simp only [List.getElem_map] at hij
    exact Fin.ext (h i j _ _ (List.getElem?_eq_getElem hi) (List.getElem?_eq_getElem hj) hij)

section Declared

variable {streams : List Text} {su : StreamUnit} {ts : List TagIndexName} {ord : Order Text Nat} {next : Nat}

theorem separate_of_slotsRight (hd : Declares streams su ts) (h : SlotsRight streams su ord next) :
    Separate streams := by
  obtain ⟨ds, next', hnew, hlen, _, hnd, hall⟩ := h
  obtain ⟨values, hfill, hds⟩ := newDataSlice_ok hnew
  have hown : ∀ {i j : Nat} {v : Nat}, ds.values[i]? = some (some v) → ds.values[j]? = some (some v) → i = j := by
    intro i j v hi hj
    obtain ⟨hilt, hiv⟩ := List.getElem?_eq_some_iff.mp hi
    obtain ⟨hjlt, hjv⟩ := List.getElem?_eq_some_iff.mp hj
    exact (List.Nodup.getElem_inj_iff hnd).mp (hiv.trans hjv.symm)
  have hkeys : (ts.map TagIndexName.tagIndex).Nodup := by
    apply (length_places_iff _).mp
    have hvalues := length_fill hfill
    rw [List.length_replicate, hd.tagIndexMap] at hvalues
    rw [← hvalues, List.length_map, hd.length, ← hlen, hds]
  refine ⟨?_, ?_, ?_⟩
  · intro i j t u hi hj htag hindex
    rw [hd.streams] at hi hj
    apply (nodup_map_iff _ _).mp hkeys i j t u hi hj
    rw [TagIndexName.tagIndex, TagIndexName.tagIndex, htag, hindex]
  · intro i j t u hi hj hname
    obtain ⟨v, hv, _, hvname⟩ := hall i t hi
    obtain ⟨w, hw, _, hwname⟩ := hall j u hj
    rw [hname, hwname] at hvname
    cases hvname
    exact hown hv hw
  · intro i t hi htag
    obtain ⟨v, hv, hget, _⟩ := hall i t hi
    rw [htag, DataSlice.get, if_pos rfl] at hget
    split at hget
    next => cases hget
    next hneg =>
      obtain ⟨w, hw, heq⟩ := Option.map_eq_some_iff.mp hget
      cases heq
      have hplace := hown hw hv
      omega

theorem Declares.nodup_keys (hd : Declares streams su ts) (h : Separate streams) :
    (ts.map TagIndexName.tagIndex).Nodup := by
  apply (nodup_map_iff _ _).mpr
  intro i j t u hi hj hkey
  have htag := hd.tagged t (List.mem_of_getElem? hi)
  have hutag := hd.tagged u (List.mem_of_getElem? hj)
  obtain ⟨heq, hindex⟩ := sprintf_inj htag hutag hkey
  rw [← hd.streams] at hi hj
  exact h.keys i j t u hi hj heq hindex

theorem Declares.nodup_names (hd : Declares streams su ts) (h : Separate streams) :
    (ts.map TagIndexName.name).Nodup := by
  apply (nodup_map_iff _ _).mpr
  intro i j t u hi hj
  rw [← hd.streams] at hi hj
  exact h.names i j t u hi hj

/-- Streams are told apart by the texts of their keys and their names. -/
theorem Separate.of_nodup (h : ∀ i, declared streams i = ts[i]?) (hkeys : (ts.map TagIndexName.tagIndex).Nodup)
    (hnames : (ts.map TagIndexName.name).Nodup) (huntagged : ∀ (i : Nat) t, ts[i]? = some t → t.tag = [] → t.index = i) :
    Separate streams := by
  refine ⟨?_, ?_, ?_⟩
  · intro i j t u hi hj htag hindex
    rw [h] at hi hj
    apply (nodup_map_iff _ _).mp hkeys i j t u hi hj
    rw [TagIndexName.tagIndex, TagIndexName.tagIndex, htag, hindex]
  · intro i j t u hi hj
    rw [h] at hi hj
    exact (nodup_map_iff _ _).mp hnames i j t u hi hj
  · intro i t hi
    rw [h] at hi
    exact huntagged i t hi

theorem Declares.length_keys (hd : Declares streams su ts) (h : Separate streams) :
    su.tagIndexMap.keys.length = ts.length := by
  rw [hd.tagIndexMap, (length_places_iff _).mpr (hd.nodup_keys h), List.length_map]

theorem Declares.lookup_name (hd : Declares streams su ts) (h : Separate streams) {i : Nat} {t : TagIndexName}
    (hi : ts[i]? = some t) : su.nameMap.lookup t.name = some i := by
  rw [hd.nameMap]
  exact lookup_places_of_nodup (hd.nodup_names h) (by rw [List.getElem?_map, hi, Option.map_some])

/-- When the streams are told apart there are as many slots as streams, and each of them is filled. -/
theorem Declares.filled (hd : Declares streams su ts) (h : Separate streams) :
    ∃ values next', fill (ord.run su.nameMap) (List.replicate su.tagIndexMap.keys.length none) next =
        some (values, next') ∧ Fresh values next' ∧ values.length = ts.length ∧
      ∀ (i : Nat) t, ts[i]? = some t → ∃ v, values[i]? = some (some v) := by
  have hsize := hd.length_keys h
  have hin : ∀ e ∈ ord.run su.nameMap,
      e.2 < (List.replicate su.tagIndexMap.keys.length (none : Option Nat)).length := by
    intro ⟨name, pos⟩ he
    rw [Order.mem_run, hd.nameMap] at he
    have hlt := (List.getElem?_eq_some_iff.mp (lookup_places he)).1
    rwa [List.length_replicate, hsize, ← List.length_map TagIndexName.name]
  have hf : Fresh (List.replicate su.tagIndexMap.keys.length none) next := by
    refine ⟨?_, ?_⟩
    · intro v hv
      cases List.eq_of_mem_replicate hv
    · intro i j v hi _
      cases List.eq_of_mem_replicate (List.mem_of_getElem? hi)
  obtain ⟨values, next', hfill, hf', hset⟩ := fill_spec hin hf
  refine ⟨values, next', hfill, hf', (length_fill hfill).trans (List.length_replicate.trans hsize), ?_⟩
  intro i t hi
  obtain hsome | ⟨_, hno⟩ := hset i
  · exact hsome
  · exact absurd rfl (hno (t.name, i) ((Order.mem_run ord).mpr (hd.lookup_name h hi)))

theorem slotsRight_of_separate (hd : Declares streams su ts) (h : Separate streams) :
    SlotsRight streams su ord next := by
  obtain ⟨values, next', hfill, hf', hlen, hslot⟩ := @Declares.filled _ _ _ ord next hd h
  have hall : ∀ i : Nat, i < values.length → ∃ v, values[i]? = some (some v) := by
    intro i hi
    exact hslot i ts[i] (List.getElem?_eq_getElem (hlen ▸ hi))
  refine ⟨⟨su.tagIndexMap, su.nameMap, su.name, values, su.tagIndexMap.keys.length⟩, next', ?_, ?_, ?_, ?_, ?_⟩
  · simp only [newDataSlice, hfill, Option.map_some]
  · exact hlen.trans hd.length
  · intro hnil
    obtain ⟨i, hi⟩ := List.mem_iff_getElem?.mp hnil
    obtain ⟨v, hv⟩ := hall i (List.getElem?_eq_some_iff.mp hi).1
    rw [hi] at hv
    cases hv
  · apply List.nodup_iff_injective_getElem.mpr
    intro i j hij
    obtain ⟨v, hv⟩ := hall i i.isLt
    refine Fin.ext (hf'.own i j v hv ?_)
    rw [← hv, List.getElem?_eq_getElem j.isLt, List.getElem?_eq_getElem i.isLt]
    exact congrArg some hij.symm
  · intro i t hi
    have hplace := h.untagged i t hi
    rw [hd.streams] at hi
    obtain ⟨v, hv⟩ := hslot i t hi
    refine ⟨v, hv, ?_, ?_⟩
    · unfold DataSlice.get
      by_cases htag : t.tag = []
      · rw [if_pos htag, hplace htag, if_neg (by omega), Int.toNat_natCast, hv, Option.map_some]
      · have hkey : su.tagIndexMap.lookup (sprintf t.tag t.index) = some i := by
          rw [hd.tagIndexMap]
          apply lookup_places_of_nodup (hd.nodup_keys h)
          rw [List.getElem?_map, hi]
          rfl
        have hlt := (List.getElem?_eq_some_iff.mp hi).1
        have hsize := hd.length_keys h
        simp only [if_neg htag, hkey, hv, Option.map_some]
        rw [if_neg (by omega)]
    · simp only [DataSlice.getByName, hd.lookup_name h hi, hv, Option.map_some]

/-- The slots of an accepted list of streams are right exactly when the streams are told apart. -/
theorem slotsRight_iff (streams : List Text) (su : StreamUnit) (h : newStreamUnit streams = .ok su)
    (ord : Order Text Nat) (next : Nat) : SlotsRight streams su ord next ↔ Separate streams := by
  obtain ⟨ts, hd⟩ := newStreamUnit_declares h
  exact ⟨separate_of_slotsRight hd, slotsRight_of_separate hd⟩

end Declared

/-- Two streams under a tag and one without. -/
def declaredApart : List Text := ["STAT:0:cpu".toList, "STAT:1:snmp".toList, "packets".toList]

def apartNames : List TagIndexName :=
  [⟨"STAT".toList, 0, "cpu".toList⟩, ⟨"STAT".toList, 1, "snmp".toList⟩, ⟨[], 2, "packets".toList⟩]

theorem slotsRight_iff_declaredApart : ∃ su, newStreamUnit declaredApart = .ok su ∧
    SlotsRight declaredApart su (Order.last "cpu".toList) 0 := by
  have hstreams : ∀ i, declared declaredApart i = apartNames[i]? := by
    intro i
    match i with
    | 0 => rfl
    | 1 => rfl
    | 2 => rfl
    | i + 3 => rfl
  have huntagged : ∀ (i : Nat) t, apartNames[i]? = some t → t.tag = [] → t.index = i := by
    intro i t hi htag
    match i with
    | 0 =>
      cases hi
      cases htag
    | 1 =>
      cases hi
      cases htag
    | 2 =>
      cases hi
      rfl
    | i + 3 => cases hi
  have hseparate := Separate.of_nodup hstreams (by decide +kernel) (by decide +kernel) huntagged
  exact ⟨_, rfl, (slotsRight_iff declaredApart _ rfl (Order.last "cpu".toList) 0).mpr hseparate⟩

def declaredTwice : List Text := ["STAT:0:cpu".toList, "STAT:0:snmp".toList]

/-- Both streams are accepted, and there is one slot for the two. -/
theorem declaredTwice_panics : ∃ su, newStreamUnit declaredTwice = .ok su ∧
    newDataSlice Order.stored su 0 = none ∧ ¬ SlotsRight declaredTwice su Order.stored 0 := by
  have hpanic : ∃ su, newStreamUnit declaredTwice = .ok su ∧ newDataSlice Order.stored su 0 = none :=
    ⟨_, rfl, by decide⟩
  obtain ⟨su, hsu, hnone⟩ := hpanic
  refine ⟨su, hsu, hnone, ?_⟩
  intro ⟨ds, next', hnew, _⟩
  rw [hnone] at hnew
  cases hnew

end Dni.FlowManager
