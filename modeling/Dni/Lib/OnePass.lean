import Dni.Lib.GoMap

namespace OnePass

inductive Ev (α : Type)
  | declare (a : α)
  | refer (a : α)

variable {α : Type}

def Ev.declared : Ev α → Option α
  | .declare a => some a
  | .refer _ => none

def Ev.referred : Ev α → Option α
  | .declare _ => none
  | .refer a => some a

theorem mem_declared {es : List (Ev α)} {a : α} : a ∈ es.filterMap Ev.declared ↔ .declare a ∈ es := by
  rw [List.mem_filterMap]
  apply Iff.intro
  · intro ⟨e, he, hea⟩
    cases e with
    | declare b =>
      cases hea
      exact he
    | refer b => cases hea
  · intro h
    exact ⟨_, h, rfl⟩

theorem mem_referred {es : List (Ev α)} {a : α} : a ∈ es.filterMap Ev.referred ↔ .refer a ∈ es := by
  rw [List.mem_filterMap]
  apply Iff.intro
  · intro ⟨e, he, hea⟩
    cases e with
    | refer b =>
      cases hea
      exact he
    | declare b => cases hea
  · intro h
    exact ⟨_, h, rfl⟩

/-- No name is declared behind a reference to it. -/
def InOrder (es : List (Ev α)) : Prop :=
  es.Pairwise fun e f => ∀ a, e = .refer a → f ≠ .declare a

theorem inOrder_cons (e : Ev α) (es : List (Ev α)) :
    InOrder (e :: es) ↔ (∀ a, e = .refer a → a ∉ es.filterMap Ev.declared) ∧ InOrder es := by
  rw [InOrder, List.pairwise_cons]
  simp only [mem_declared]
  refine and_congr_left' ?_
  apply Iff.intro
  · intro h a he hmem
    exact h _ hmem a he rfl
  · intro h f hf a he hfa
    exact h a he (hfa ▸ hf)

theorem inOrder_append {es fs : List (Ev α)} :
    InOrder (es ++ fs) ↔ InOrder es ∧ InOrder fs ∧ ∀ a, .refer a ∈ es → .declare a ∉ fs := by
  rw [InOrder, List.pairwise_append]
  refine and_congr_right' (and_congr_right' ?_)
  apply Iff.intro
  · intro h a ha hd
    exact h _ ha _ hd a rfl rfl
  · intro h e he f hf a hea hfa
    exact h a (hea ▸ he) (hfa ▸ hf)

theorem inOrder_flatMap {β : Type} {xs : List β} {f : β → List (Ev α)} :
    InOrder (xs.flatMap f) ↔ (∀ x ∈ xs, InOrder (f x)) ∧
      xs.Pairwise fun x y => ∀ a, .refer a ∈ f x → .declare a ∉ f y := by
  rw [InOrder, List.pairwise_flatMap]
  refine and_congr_right' ?_
  have hpair : ∀ x y, (∀ e ∈ f x, ∀ e' ∈ f y, ∀ a, e = .refer a → e' ≠ .declare a) ↔
      ∀ a, .refer a ∈ f x → .declare a ∉ f y := by
    intro x y
    apply Iff.intro
    · intro h a ha hd
      exact h _ ha _ hd a rfl rfl
    · intro h e he e' he' a hea hfa
      exact h a (hea ▸ he) (hfa ▸ he')
  simp only [hpair]

theorem inOrder_declare (as : List α) : InOrder (as.map .declare) :=
  List.pairwise_map.mpr (List.pairwise_of_forall fun _ _ _ h => nomatch h)

theorem inOrder_refer (as : List α) : InOrder (as.map .refer) :=
  List.pairwise_map.mpr (List.pairwise_of_forall fun _ _ _ _ h => nomatch h)

/-- A reference is right when it has the place of every declaration of its name. -/
def Right (declared : List α) (x : α × Option Nat) : Prop :=
  ∀ p : Nat, declared[p]? = some x.1 → x.2 = some p

/-- The names declared so far, where each stands, and what the references resolved to. -/
structure Pass (α : Type) where
  declared : List α
  index : GoMap α Nat
  resolved : List (α × Option Nat)

namespace Pass

variable [DecidableEq α]

def step (s : Pass α) : Ev α → Pass α
  | .declare a => { s with
      declared := s.declared ++ [a], index := s.index.insert a s.declared.length }
  | .refer a => { s with resolved := s.resolved ++ [(a, s.index.lookup a)] }

def run (s : Pass α) (es : List (Ev α)) : Pass α := es.foldl step s

theorem run_cons (s : Pass α) (e : Ev α) (es : List (Ev α)) : s.run (e :: es) = (s.step e).run es := rfl

theorem run_append (s : Pass α) (es fs : List (Ev α)) : s.run (es ++ fs) = (s.run es).run fs :=
  List.foldl_append

/-- The index finds exactly the names that are declared, at the last place where they stand. -/
structure Indexed (s : Pass α) : Prop where
  found : ∀ a (p : Nat), s.index.lookup a = some p → s.declared[p]? = some a
  last : ∀ a (p q : Nat), s.index.lookup a = some p → s.declared[q]? = some a → q ≤ p
  missing : ∀ a, s.index.lookup a = none → a ∉ s.declared

theorem Indexed.step {s : Pass α} (hs : s.Indexed) (e : Ev α) : (s.step e).Indexed := by
  cases e with
  | refer a => exact ⟨hs.found, hs.last, hs.missing⟩
  | declare a =>
    refine ⟨?_, ?_, ?_⟩
    · intro b p h
      simp only [Pass.step, GoMap.lookup_insert_if] at h ⊢
      split at h
      next hb =>
        cases Option.some.inj h
        simp [hb]
      next =>
        have hp := hs.found b p h
        rwa [List.getElem?_append_left (List.getElem?_eq_some_iff.mp hp).1]
    · intro b p q h hq
      simp only [Pass.step, GoMap.lookup_insert_if] at h hq
      have hlt := (List.getElem?_eq_some_iff.mp hq).1
      rw [List.length_append, List.length_singleton] at hlt
      split at h
      next =>
        cases Option.some.inj h
        omega
      next hb =>
        by_cases hold : q < s.declared.length
        · rw [List.getElem?_append_left hold] at hq
          exact hs.last b p q h hq
        · have hend : q = s.declared.length := by omega
          subst q
          rw [List.getElem?_concat_length] at hq
          exact absurd (Option.some.inj hq).symm hb
    · intro b h
      simp only [Pass.step, GoMap.lookup_insert_if] at h ⊢
      split at h
      next => cases h
      next hb =>
        have hmem := hs.missing b h
        simp [hmem, hb]

theorem Indexed.run {s : Pass α} (hs : s.Indexed) (es : List (Ev α)) : (s.run es).Indexed := by
  induction es generalizing s with
  | nil => exact hs
  | cons e es ih => exact ih (hs.step e)

/-- The name at a place is found there when it does not stand at a later one. -/
theorem Indexed.lookup_iff {s : Pass α} (hs : s.Indexed) {a : α} {k : Nat} (hk : s.declared[k]? = some a) :
    s.index.lookup a = some k ↔ ∀ q : Nat, s.declared[q]? = some a → q ≤ k := by
  apply Iff.intro
  · intro h q hq
    exact hs.last a k q h hq
  · intro h
    cases hl : s.index.lookup a with
    | none => exact absurd (List.mem_of_getElem? hk) (hs.missing a hl)
    | some p =>
      have hpk := h p (hs.found a p hl)
      have hkp := hs.last a p k hl hk
      rw [show p = k by omega]

theorem run_declared (s : Pass α) (es : List (Ev α)) :
    (s.run es).declared = s.declared ++ es.filterMap Ev.declared := by
  induction es generalizing s with
  | nil => simp [run]
  | cons e es ih =>
    rw [run_cons, ih]
    cases e with
    | declare a => simp [step, Ev.declared]
    | refer a => simp [step, List.filterMap_cons, Ev.declared]

theorem run_referred (s : Pass α) (es : List (Ev α)) :
    (s.run es).resolved.map Prod.fst = s.resolved.map Prod.fst ++ es.filterMap Ev.referred := by
  induction es generalizing s with
  | nil => simp [run]
  | cons e es ih =>
    rw [run_cons, ih]
    cases e with
    | declare a => simp [step, List.filterMap_cons, Ev.referred]
    | refer a => simp [step, Ev.referred]

/-- With distinct declarations a reference is right when its name is not declared later. -/
theorem Indexed.right_iff {s : Pass α} (hs : s.Indexed) {rest : List α} {a : α}
    (hd : (s.declared ++ rest).Nodup) :
    Right (s.declared ++ rest) (a, s.index.lookup a) ↔ a ∉ rest := by
  apply Iff.intro
  · intro h hrest
    obtain ⟨q, hq⟩ := List.mem_iff_getElem?.mp hrest
    have hlater : (s.declared ++ rest)[s.declared.length + q]? = some a := by
      rw [List.getElem?_append_right (by omega), Nat.add_sub_cancel_left, hq]
    have hp := hs.found a _ (h _ hlater)
    have := (List.getElem?_eq_some_iff.mp hp).1
    omega
  · intro hrest p hp
    have hmem : a ∈ s.declared :=
      (List.mem_append.mp (List.mem_of_getElem? hp)).resolve_right hrest
    cases hl : s.index.lookup a with
    | none => exact absurd hmem (hs.missing a hl)
    | some q =>
      have hq := hs.found a q hl
      have hlt := (List.getElem?_eq_some_iff.mp hq).1
      have hq' : (s.declared ++ rest)[q]? = some a := by rwa [List.getElem?_append_left hlt]
      have hqp : q = p := by
        apply (List.getElem?_inj _ hd).mp (hq'.trans hp.symm)
        rw [List.length_append]
        omega
      rw [hqp]

def empty : Pass α := ⟨[], ∅, []⟩

theorem empty_indexed : (empty : Pass α).Indexed :=
  ⟨fun a p h => by simp [empty] at h, fun a p q h => by simp [empty] at h, fun a _ => by simp [empty]⟩

theorem run_resolved {s : Pass α} (hs : s.Indexed) (es : List (Ev α))
    (hd : (s.run es).declared.Nodup) :
    (∀ x ∈ (s.run es).resolved, Right (s.run es).declared x) ↔
      (∀ x ∈ s.resolved, Right (s.run es).declared x) ∧ InOrder es := by
  induction es generalizing s with
  | nil => simp [run, InOrder]
  | cons e es ih =>
    rw [run_cons] at hd ⊢
    rw [ih (hs.step e) hd, inOrder_cons]
    cases e with
    | declare a => simp [step]
    | refer a =>
      have hall : ((s.step (.refer a)).run es).declared = s.declared ++ es.filterMap Ev.declared :=
        run_declared _ _
      have hright := hs.right_iff (hall ▸ hd) (a := a)
      rw [hall]
      simp only [step, List.mem_append, List.mem_singleton, or_imp, forall_and, forall_eq,
        Ev.refer.injEq, forall_eq', hright, and_assoc]

theorem run_refers (s : Pass α) (as : List α) : s.run (as.map .refer) =
    { s with resolved := s.resolved ++ as.map fun a => (a, s.index.lookup a) } := by
  induction as generalizing s with
  | nil => simp [run]
  | cons a as ih =>
    rw [List.map_cons, run_cons, ih]
    simp [step]

theorem resolved_kept (s : Pass α) (es : List (Ev α)) : s.resolved <+: (s.run es).resolved := by
  induction es generalizing s with
  | nil => exact List.prefix_rfl
  | cons e es ih =>
    refine List.IsPrefix.trans ?_ (ih (s.step e))
    cases e with
    | declare a => exact List.prefix_rfl
    | refer a => exact List.prefix_append _ _

/-- References that stand together are resolved by what is declared before them. -/
theorem run_resolved_at (s : Pass α) (before after : List (Ev α)) {as : List α} {k : Nat} {a : α}
    (ha : as[k]? = some a) :
    (s.run (before ++ (as.map .refer ++ after))).resolved[(s.run before).resolved.length + k]? =
      some (a, (s.run before).index.lookup a) := by
  have hhere : (((s.run before).run (as.map .refer)).resolved)[(s.run before).resolved.length + k]? =
      some (a, (s.run before).index.lookup a) := by
    rw [run_refers, List.getElem?_append_right (Nat.le_add_right _ _), Nat.add_sub_cancel_left, List.getElem?_map, ha]
    rfl
  rw [run_append, run_append]
  exact List.prefix_iff_getElem?.mp (resolved_kept _ after) _ (List.getElem?_eq_some_iff.mp hhere).1 ▸
    (List.getElem?_eq_getElem _).symm.trans hhere

end Pass

/-- Blocks of names that stand one behind the other from a place on, each with its first place. -/
def InBlocks (start : Nat) : List (Nat × List α) → Prop
  | [] => True
  | b :: bs => b.1 = start ∧ InBlocks (start + b.2.length) bs

theorem InBlocks.getElem?_iff {start : Nat} {bs : List (Nat × List α)} (h : InBlocks start bs) (p : Nat) (a : α) :
    start ≤ p ∧ (bs.flatMap Prod.snd)[p - start]? = some a ↔
      ∃ b ∈ bs, ∃ k : Nat, b.2[k]? = some a ∧ p = b.1 + k := by
  induction bs generalizing start with
  | nil => simp
  | cons b bs ih =>
    obtain ⟨hb, hbs⟩ := h
    rw [List.flatMap_cons]
    have hih := ih hbs
    apply Iff.intro
    · intro ⟨hle, hp⟩
      by_cases hlt : p - start < b.2.length
      · rw [List.getElem?_append_left hlt] at hp
        exact ⟨b, by simp, p - start, hp, by omega⟩
      · rw [List.getElem?_append_right (by omega), Nat.sub_sub] at hp
        obtain ⟨b', hb', k, hk⟩ := hih.mp ⟨by omega, hp⟩
        exact ⟨b', by simp [hb'], k, hk⟩
    · intro ⟨b', hb', k, hk, hpk⟩
      obtain hhead | htail := List.mem_cons.mp hb'
      · subst hhead
        have hlt := (List.getElem?_eq_some_iff.mp hk).1
        have hsub : p - start = k := by omega
        exact ⟨by omega, by rw [hsub, List.getElem?_append_left hlt, hk]⟩
      · obtain ⟨hle, hp⟩ := hih.mpr ⟨b', htail, k, hk, hpk⟩
        refine ⟨by omega, ?_⟩
        rw [List.getElem?_append_right (by omega), Nat.sub_sub, hp]

theorem InBlocks.le {start : Nat} {bs : List (Nat × List α)} (h : InBlocks start bs) :
    ∀ b ∈ bs, start ≤ b.1 := by
  induction bs generalizing start with
  | nil => simp
  | cons b bs ih =>
    obtain ⟨hb, hbs⟩ := h
    rw [List.forall_mem_cons]
    refine ⟨by omega, ?_⟩
    intro c hc
    have := ih hbs c hc
    omega

theorem InBlocks.take {start : Nat} {bs : List (Nat × List α)} (h : InBlocks start bs) (n : Nat) :
    InBlocks start (bs.take n) := by
  induction bs generalizing start n with
  | nil => rwa [List.take_nil]
  | cons b bs ih =>
    cases n with
    | zero => trivial
    | succ n => exact ⟨h.1, ih h.2 n⟩

/-- A block starts behind the names of those before it. -/
theorem InBlocks.start_eq {start : Nat} {bs : List (Nat × List α)} (h : InBlocks start bs) {i : Nat}
    {b : Nat × List α} (hb : bs[i]? = some b) : b.1 = start + ((bs.take i).flatMap Prod.snd).length := by
  induction bs generalizing start i with
  | nil => cases hb
  | cons c bs ih =>
    cases i with
    | zero =>
      cases Option.some.inj hb
      exact h.1
    | succ i =>
      rw [ih h.2 hb, List.take_succ_cons, List.flatMap_cons, List.length_append, Nat.add_assoc]

theorem InBlocks.end_le {start : Nat} {bs : List (Nat × List α)} (h : InBlocks start bs) {i j : Nat}
    {b c : Nat × List α} (hb : bs[i]? = some b) (hc : bs[j]? = some c) (hij : i < j) : b.1 + b.2.length ≤ c.1 := by
  rw [h.start_eq hb, h.start_eq hc, Nat.add_assoc, Nat.add_le_add_iff_left, ← List.length_append]
  have htake : (bs.take i).flatMap Prod.snd ++ b.2 = (bs.take (i + 1)).flatMap Prod.snd := by
    rw [List.take_add_one, hb, Option.toList_some, List.flatMap_append, List.flatMap_singleton]
  rw [htake]
  obtain ⟨rest, hrest⟩ := List.take_prefix_take_left (l := bs) (show i + 1 ≤ j by omega)
  rw [← hrest, List.flatMap_append, List.length_append]
  exact Nat.le_add_right _ _

/-- A place is in one block only, at one position. -/
theorem InBlocks.place_inj {start : Nat} {bs : List (Nat × List α)} (h : InBlocks start bs) {i j k l : Nat}
    {b c : Nat × List α} (hb : bs[i]? = some b) (hc : bs[j]? = some c) (hk : k < b.2.length)
    (hl : l < c.2.length) (heq : b.1 + k = c.1 + l) : i = j ∧ k = l := by
  induction bs generalizing start i j with
  | nil => cases hb
  | cons d bs ih =>
    obtain ⟨hd, hbs⟩ := h
    have hlater : ∀ {n : Nat} {e : Nat × List α}, bs[n]? = some e → start + d.2.length ≤ e.1 :=
      fun he => hbs.le _ (List.mem_of_getElem? he)
    cases i with
    | zero =>
      cases Option.some.inj hb
      cases j with
      | zero =>
        cases Option.some.inj hc
        exact ⟨rfl, by omega⟩
      | succ j =>
        have := hlater hc
        omega
    | succ i =>
      cases j with
      | zero =>
        cases Option.some.inj hc
        have := hlater hb
        omega
      | succ j =>
        obtain ⟨hij, hkl⟩ := ih hbs hb hc
        exact ⟨by omega, hkl⟩

end OnePass
