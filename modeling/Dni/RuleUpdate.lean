import Dni.FloodRules
import Dni.Lib.LastGiven

namespace Dni

open LastGiven

namespace RuleSet

section Update

variable {α : Type}

/-- A rule that nobody set; `zero` is the action of it. -/
def unsetRule (zero : α) : Match × α := ({}, zero)

/-- The action that a match has after the first `i` rules. -/
def actionBefore (rules : GoMap Match α) (rs : List (Match × α)) (i : Nat) (m : Match) : Option α :=
  (lastGiven (rs.take i) m).or (rules.lookup m)

theorem actionBefore_append {rules : GoMap Match α} (rs rest : List (Match × α)) {i : Nat} (hi : i ≤ rs.length)
    (m : Match) : actionBefore rules (rs ++ rest) i m = actionBefore rules rs i m := by
  rw [actionBefore, actionBefore, List.take_append_of_le_length hi]

theorem actionBefore_length {rules : GoMap Match α} (rs : List (Match × α)) (m : Match) :
    actionBefore rules rs rs.length m = (lastGiven rs m).or (rules.lookup m) := by
  rw [actionBefore, List.take_length]

theorem lookup_given {m rules : GoMap Match α} {done : List (Match × α)} (r : Match × α)
    (hm : ∀ k, m.lookup k = (lastGiven done k).or (rules.lookup k)) (k : Match) :
    (m.insert r.1 r.2).lookup k = (lastGiven (done ++ [r]) k).or (rules.lookup k) := by
  rw [GoMap.lookup_insert_if, lastGiven_concat, hm]
  by_cases hk : k = r.1
  · rw [if_pos hk, if_pos hk.symm, Option.some_or]
  · rw [if_neg hk, if_neg (Ne.symm hk)]

variable [DecidableEq α]

/-- The loop of Update; `del` and `i` are the list that is handed back and the number of its entries that are set. -/
def updateLoop : List (Match × α) → GoMap Match α → List (Match × α) → Nat →
    Option (GoMap Match α × List (Match × α))
  | [], rules, del, _ => some (rules, del)
  | r :: rs, rules, del, i =>
    match rules.lookup r.1 with
    | none => updateLoop rs (rules.insert r.1 r.2) del i
    | some a =>
      if a ≠ r.2 then
        if i < del.length then updateLoop rs (rules.insert r.1 r.2) (del.set i (r.1, a)) (i + 1) else none
      else updateLoop rs rules del i

/-- The action of a rule may be of any type here. -/
def update (zero : α) (rules : GoMap Match α) (rs : List (Match × α)) : Option (GoMap Match α × List (Match × α)) :=
  updateLoop rs rules (List.replicate rs.length (unsetRule zero)) 0

/-- The match of the `i`-th rule with the action it had, if that rule replaces a different action. -/
def replacedAt (rules : GoMap Match α) (rs : List (Match × α)) (i : Nat) : Option (Match × α) :=
  rs[i]?.bind fun r => (actionBefore rules rs i r.1).bind fun a => if a ≠ r.2 then some (r.1, a) else none

/-- The replaced rules, in the order of the list. -/
def replaced (rules : GoMap Match α) (rs : List (Match × α)) : List (Match × α) :=
  (List.range rs.length).filterMap (replacedAt rules rs)

/-- Each given match has the action that was last given for it, the others keep theirs, and the list that is handed
back is that of the replaced rules. -/
def UpdatesRight (zero : α) (rules : GoMap Match α) (rs : List (Match × α)) : Prop :=
  ∃ rules' del, update zero rules rs = some (rules', del) ∧
    (∀ m, rules'.lookup m = (lastGiven rs m).or (rules.lookup m)) ∧ del = replaced rules rs

variable {rules : GoMap Match α}

theorem replacedAt_concat (done : List (Match × α)) (r : Match × α) :
    replacedAt rules (done ++ [r]) done.length =
      ((lastGiven done r.1).or (rules.lookup r.1)).bind fun a => if a ≠ r.2 then some (r.1, a) else none := by
  rw [replacedAt, List.getElem?_concat_length, Option.bind_some, actionBefore_append _ _ le_rfl, actionBefore_length]

/-- What one more rule adds to the replaced ones. -/
theorem replaced_concat (done : List (Match × α)) (r : Match × α) :
    replaced rules (done ++ [r]) = replaced rules done ++ (replacedAt rules (done ++ [r]) done.length).toList := by
  have hdone : ∀ i ∈ List.range done.length, replacedAt rules (done ++ [r]) i = replacedAt rules done i := by
    intro i hi
    have hlt := List.mem_range.mp hi
    simp only [replacedAt, List.getElem?_append_left hlt, actionBefore_append done [r] hlt.le]
  rw [replaced, List.length_append, List.length_singleton, List.range_succ, List.filterMap_append,
    List.filterMap_congr hdone, List.filterMap_cons, List.filterMap_nil, replaced]
  cases replacedAt rules (done ++ [r]) done.length with
  | none => rfl
  | some e => rfl

/-- Behind the replaced rules the list keeps the room that was made for the others. The induction is on the rules
that are still to come, `done` are those before them. -/
theorem updateLoop_eq (zero : α) (rs : List (Match × α)) {done : List (Match × α)} {m : GoMap Match α}
    (hm : ∀ k, m.lookup k = (lastGiven done k).or (rules.lookup k)) {room : Nat} (hroom : rs.length ≤ room) :
    ∃ rules' rest,
      updateLoop rs m (replaced rules done ++ List.replicate room (unsetRule zero)) (replaced rules done).length =
        some (rules', replaced rules (done ++ rs) ++ List.replicate rest (unsetRule zero)) ∧
      (replaced rules (done ++ rs)).length + rest = (replaced rules done).length + room ∧
      ∀ k, rules'.lookup k = (lastGiven (done ++ rs) k).or (rules.lookup k) := by
  induction rs generalizing done m room with
  | nil =>
    rw [List.append_nil]
    exact ⟨m, room, rfl, rfl, hm⟩
  | cons r rs ih =>
    have hsplit : done ++ r :: rs = done ++ [r] ++ rs := by simp
    have hadd := @replaced_concat α _ rules done r
    rw [replacedAt_concat, ← hm] at hadd
    rw [List.length_cons] at hroom
    rw [hsplit, updateLoop]
    cases hl : m.lookup r.1 with
    | none =>
      rw [hl, Option.bind_none, Option.toList_none, List.append_nil] at hadd
      have hrest := ih (lookup_given r hm) (Nat.le_of_succ_le hroom)
      rwa [hadd] at hrest
    | some a =>
      rw [hl, Option.bind_some] at hadd
      by_cases ha : a = r.2
      · rw [if_neg (not_not.mpr ha), Option.toList_none, List.append_nil] at hadd
        have hsame : ∀ k, m.lookup k = (lastGiven (done ++ [r]) k).or (rules.lookup k) := by
          intro k
          rw [← lookup_given r hm k, GoMap.lookup_insert_if]
          split
          next hk => rw [hk, hl, ha]
          next => rfl
        have hrest := ih hsame (Nat.le_of_succ_le hroom)
        rw [hadd] at hrest
        simpa only [if_neg (not_not.mpr ha)] using hrest
      · rw [if_pos ha, Option.toList_some] at hadd
        obtain ⟨room, rfl⟩ : ∃ left, room = left + 1 := Nat.exists_eq_succ_of_ne_zero (by omega)
        have hin : (replaced rules done).length <
            (replaced rules done ++ List.replicate (room + 1) (unsetRule zero)).length := by
          rw [List.length_append, List.length_replicate]
          omega
        have hset : (replaced rules done ++ List.replicate (room + 1) (unsetRule zero)).set
            (replaced rules done).length (r.1, a) =
              replaced rules (done ++ [r]) ++ List.replicate room (unsetRule zero) := by
          rw [hadd, List.set_append_right _ _ le_rfl, Nat.sub_self, List.replicate_succ, List.set_cons_zero,
            List.append_assoc, List.singleton_append]
        have hlen : (replaced rules (done ++ [r])).length = (replaced rules done).length + 1 := by
          rw [hadd, List.length_append, List.length_singleton]
        obtain ⟨rules', rest, hloop, hrest, hlookup⟩ := ih (lookup_given r hm) (Nat.le_of_succ_le_succ hroom)
        refine ⟨rules', rest, ?_, by omega, hlookup⟩
        rw [hlen] at hloop
        simp only [if_pos ha, if_pos hin, hset, hloop]

/-- Update replaces what it has to, and hands back the replaced rules with an unset rule for each of the others. -/
theorem update_eq (zero : α) (rules : GoMap Match α) (rs : List (Match × α)) :
    ∃ rules' rest, update zero rules rs =
        some (rules', replaced rules rs ++ List.replicate rest (unsetRule zero)) ∧
      (replaced rules rs).length + rest = rs.length ∧
      ∀ k, rules'.lookup k = (lastGiven rs k).or (rules.lookup k) := by
  obtain ⟨rules', rest, hloop, hrest, hlookup⟩ :=
    @updateLoop_eq α _ rules zero rs [] rules (fun _ => by rw [lastGiven, Option.none_or]) rs.length le_rfl
  have hlen : (replaced rules rs).length + rest = 0 + rs.length := hrest
  rw [Nat.zero_add] at hlen
  exact ⟨rules', rest, hloop, hlen, hlookup⟩

theorem replacedAt_isSome_iff {rs : List (Match × α)} {i : Nat} :
    (replacedAt rules rs i).isSome ↔ ∃ r a, rs[i]? = some r ∧ actionBefore rules rs i r.1 = some a ∧ a ≠ r.2 := by
  rw [replacedAt, Option.isSome_iff_exists]
  simp only [Option.bind_eq_some_iff, Option.ite_none_right_eq_some]
  apply Iff.intro
  · intro ⟨_, r, hr, a, ha, hne, _⟩
    exact ⟨r, a, hr, ha, hne⟩
  · intro ⟨r, a, hr, ha, hne⟩
    exact ⟨(r.1, a), r, hr, a, ha, hne, rfl⟩

/-- As many rules are replaced as are given exactly when each of them replaces one. -/
theorem length_replaced_iff (rs : List (Match × α)) :
    (replaced rules rs).length = rs.length ↔ ∀ i < rs.length, (replacedAt rules rs i).isSome := by
  have hrange : rs.length = (List.range rs.length).length := List.length_range.symm
  rw [replaced]
  nth_rewrite 2 [hrange]
  rw [List.filterMap_length_eq_length]
  simp only [List.mem_range]

end Update

/-- Update does what it has to exactly when every rule of the list finds a different action for its match, in the set
or from an earlier rule. -/
theorem updatesRight_iff {α : Type} [DecidableEq α] (zero : α) (rules : GoMap Match α) (rs : List (Match × α)) :
    UpdatesRight zero rules rs ↔
      ∀ i < rs.length, ∃ r a, rs[i]? = some r ∧ actionBefore rules rs i r.1 = some a ∧ a ≠ r.2 := by
  obtain ⟨rules', rest, hupdate, hlen, hlookup⟩ := update_eq zero rules rs
  have hall := @length_replaced_iff α _ rules rs
  simp only [replacedAt_isSome_iff] at hall
  rw [← hall]
  apply Iff.intro
  · intro ⟨_, del, hsome, _, hdel⟩
    rw [hupdate] at hsome
    cases hsome
    have hrest := congrArg List.length hdel
    rw [List.length_append, List.length_replicate] at hrest
    omega
  · intro hfull
    have hzero : rest = 0 := by omega
    subst hzero
    rw [List.replicate_zero, List.append_nil] at hupdate
    exact ⟨rules', _, hupdate, hlookup, rfl⟩

def firstRule : Match × Action := ({ type := "l3", srcIP := "10.0.0.1" }, ⟨.limitPps, 100⟩)

/-- The first rule of a set replaces nothing, and a rule that nobody set is handed back for it. -/
theorem firstRule_handsBack : (update {} ∅ [firstRule]).map Prod.snd = some [unsetRule {}] ∧
    ¬ UpdatesRight {} ∅ [firstRule] := by
  refine ⟨by decide, ?_⟩
  intro ⟨rules', del, hupdate, _, hdel⟩
  have hback : (update {} ∅ [firstRule]).map Prod.snd = some [unsetRule {}] := by decide
  rw [hupdate] at hback
  cases hback
  revert hdel
  decide

end RuleSet

end Dni
