import Dni.SlowDetection

namespace Dni.Dms

open SortSearch

theorem foldl_snoc {α : Type} (xs init : List α) :
    xs.foldl (fun l x => l ++ [x]) init = init ++ xs := by
  induction xs generalizing init with
  | nil => simp
  | cons x xs ih => simp [ih]

theorem perPort_getD (conns : List ConnInfo) (port : UInt16) :
    ((GoMap.accumulate (fun c : ConnInfo => c.flow.rport) [] (fun l c => l ++ [c]) conns
      ∅).lookup port).getD [] = conns.filter fun c => c.flow.rport = port := by
  rw [GoMap.lookup_accumulate]
  split
  next h => simp only [AList.lookup_empty, Option.getD_none, Option.getD_some, foldl_snoc, List.nil_append]
  next h =>
    have hnil : conns.filter (fun c => c.flow.rport = port) = [] := by
      simpa [List.filter_eq_nil_iff] using h
    simp [hnil]

/-- The connections of a pattern, without those whose buffers are empty. -/
def withPattern (all : List ConnInfo) (k : Pattern) : List ConnInfo :=
  (all.filter fun ci => ¬ (ci.send = 0 ∧ ci.recv = 0)).filter fun ci => ci.pattern = k

/-- What is left of the patterns: those of more than the threshold of connections. -/
theorem lookup_filterCi {o : GoMap.Order Pattern (List ConnInfo)} {all : List ConnInfo} {th : Int}
    {k : Pattern} {cis : List ConnInfo} :
    (filterCiBySendRecvQ o all th).lookup k = some cis ↔
      cis = withPattern all k ∧ cis ≠ [] ∧ th < cis.length := by
  let kept := all.filter fun ci => ¬ (ci.send = 0 ∧ ci.recv = 0)
  let agg := GoMap.accumulate ConnInfo.pattern [] (fun l c => l ++ [c]) kept ∅
  have hagg : ∀ k cis, agg.lookup k = some cis ↔ cis = withPattern all k ∧ cis ≠ [] := by
    intro k cis
    have hnil : withPattern all k = [] ↔ ¬ ∃ x ∈ kept, x.pattern = k := by
      change kept.filter _ = [] ↔ _
      rw [List.filter_eq_nil_iff]
      simp only [decide_eq_true_eq, not_exists, not_and]
    rw [GoMap.lookup_accumulate]
    split
    next h =>
      have hne : withPattern all k ≠ [] := fun hn => hnil.mp hn h
      simp only [AList.lookup_empty, Option.getD_none, foldl_snoc, List.nil_append, Option.some.injEq]
      apply Iff.intro
      · intro he
        exact ⟨he.symm, he ▸ hne⟩
      · intro he
        exact he.1.symm
    next h =>
      simp only [AList.lookup_empty, reduceCtorEq, false_iff, not_and, not_not]
      intro he
      rw [he, hnil.mpr h]
  change (GoMap.eraseAll (((o.run agg).filter fun e => (e.2.length : Int) ≤ th).map Prod.fst)
    agg).lookup k = some cis ↔ _
  have hdel : k ∈ ((o.run agg).filter fun e => (e.2.length : Int) ≤ th).map Prod.fst ↔
      ∃ cis, agg.lookup k = some cis ∧ (cis.length : Int) ≤ th := by
    simp [List.mem_map, List.mem_filter]
  rw [GoMap.lookup_eraseAll]
  split
  next h =>
    obtain ⟨cis', hl, hle⟩ := hdel.mp h
    simp only [reduceCtorEq, false_iff, not_and]
    intro he hne
    have heq : cis' = cis := by rw [((hagg k cis').mp hl).1, he]
    rw [← heq]
    omega
  next h =>
    rw [hagg]
    apply Iff.intro
    · intro ⟨he, hne⟩
      refine ⟨he, hne, ?_⟩
      by_contra hlt
      exact h (hdel.mpr ⟨cis, (hagg k cis).mpr ⟨he, hne⟩, by omega⟩)
    · intro ⟨he, hne, _⟩
      exact ⟨he, hne⟩

/-- A step of the inner loop: the port, the pattern, and the first of its connections. -/
structure SlowVisit where
  port : UInt16
  pattern : Pattern
  first : ConnInfo

def SlowVisit.rule (v : SlowVisit) : Rule :=
  genL3l4Rule v.pattern.host protoStrTcp v.port false .drop 0

/-- The steps at one port. -/
def portVisits (ch : SlowChoices) (perPort : GoMap UInt16 (List ConnInfo)) (th : Int)
    (port : UInt16) : List SlowVisit :=
  let o := ch.patterns port
  (o.run (filterCiBySendRecvQ o ((perPort.lookup port).getD []) th)).filterMap fun e =>
    e.2.head?.map (SlowVisit.mk port e.1)

/-- All steps, up to the first port with fewer connections than the threshold. -/
def slowVisits (ch : SlowChoices) (perPort : GoMap UInt16 (List ConnInfo)) (th : Int)
    (flows : List FlowStat) : List SlowVisit :=
  (flows.takeWhile fun s => th ≤ s.count).flatMap fun s => portVisits ch perPort th s.key

variable {ipNic : GoMap String String}

/-- What the loops leave behind, told from the steps they take. -/
structure Told (ipNic : GoMap String String) (s s' : SlowState) (vs : List SlowVisit) : Prop where
  dev : s'.info.dev = ((vs.getLast?).map fun v => lookupDev v.first.dst ipNic).getD s.info.dev
  type : .httpSlowRead ∈ s'.info.type ↔ .httpSlowRead ∈ s.info.type ∨ vs ≠ []
  rules : ∀ m, m ∈ s'.rs.rules ↔ m ∈ s.rs.rules ∨ ∃ v ∈ vs, v.rule.toMatch = m

theorem Told.append {s s' s'' : SlowState} {vs ws : List SlowVisit} (h : Told ipNic s s' vs)
    (h' : Told ipNic s' s'' ws) : Told ipNic s s'' (vs ++ ws) := by
  refine ⟨?_, ?_, ?_⟩
  · rw [h'.dev, h.dev, List.getLast?_append]
    cases ws.getLast? <;> rfl
  · rw [h'.type, h.type]
    simp [or_assoc, ← not_and_or]
  · intro m
    rw [h'.rules, h.rules, or_assoc]
    simp [or_and_right, exists_or]

theorem told_refl (s : SlowState) : Told ipNic s s [] := by
  refine ⟨rfl, by simp, by simp⟩

/-- The inner loop, once the type is set. -/
theorem foldl_slowPattern (port : UInt16) (es : List (Pattern × List ConnInfo)) (s : SlowState) :
    let vs := es.filterMap fun e => e.2.head?.map (SlowVisit.mk port e.1)
    let s' := es.foldl (slowPattern ipNic port) s
    s'.info.dev = ((vs.getLast?).map fun v => lookupDev v.first.dst ipNic).getD s.info.dev ∧
      s'.info.type = s.info.type ∧
      ∀ m, m ∈ s'.rs.rules ↔ m ∈ s.rs.rules ∨ ∃ v ∈ vs, v.rule.toMatch = m := by
  induction es generalizing s with
  | nil => simp
  | cons e es ih =>
    obtain ⟨k, cis⟩ := e
    obtain ⟨hdev, htype, hrules⟩ := ih (slowPattern ipNic port s (k, cis))
    cases cis with
    | nil => exact ⟨hdev, htype, hrules⟩
    | cons ci cis =>
      refine ⟨?_, htype, ?_⟩
      · rw [List.foldl_cons, hdev]
        simp only [List.filterMap_cons, List.head?_cons, Option.map_some, List.getLast?_cons]
        cases (es.filterMap fun e => e.2.head?.map (SlowVisit.mk port e.1)).getLast? <;> rfl
      · intro m
        rw [List.foldl_cons, hrules]
        simp only [slowPattern, RuleSet.mem_add, or_assoc, List.filterMap_cons, List.head?_cons,
          Option.map_some, List.mem_cons, exists_eq_or_imp, List.not_mem_nil, false_and, exists_false,
          false_or]
        rfl

theorem mem_setType {a : AttackInfo} {t u : AT} : u ∈ (a.setType t).type ↔ u ∈ a.type ∨ u = t := by
  unfold AttackInfo.setType
  split
  next h =>
    apply Iff.intro
    · exact Or.inl
    · intro hu
      rcases hu with hu | hu
      · exact hu
      · exact hu ▸ h
  next h => simp

theorem setType_dev (a : AttackInfo) (t : AT) : (a.setType t).dev = a.dev := by
  unfold AttackInfo.setType
  split <;> rfl

variable (ch : SlowChoices) (perPort : GoMap UInt16 (List ConnInfo)) (th : Int)

theorem mem_portVisits {port : UInt16} {v : SlowVisit} :
    v ∈ portVisits ch perPort th port ↔ v.port = port ∧
      (withPattern ((perPort.lookup port).getD []) v.pattern).head? = some v.first ∧
      th < (withPattern ((perPort.lookup port).getD []) v.pattern).length := by
  obtain ⟨p, k, ci⟩ := v
  simp only [portVisits, List.mem_filterMap, Option.map_eq_some_iff, Prod.exists,
    GoMap.Order.mem_run, lookup_filterCi, SlowVisit.mk.injEq]
  apply Iff.intro
  · intro h
    rcases h with ⟨k', cis, ⟨he, _, hlt⟩, c, hhead, hp, hk, hc⟩
    subst hk hc
    exact ⟨hp.symm, he ▸ hhead, he ▸ hlt⟩
  · intro h
    rcases h with ⟨hp, hhead, hlt⟩
    refine ⟨k, _, ⟨rfl, ?_, hlt⟩, ci, hhead, hp.symm, rfl, rfl⟩
    intro hn
    rw [hn] at hhead
    cases hhead

theorem portVisits_eq_nil {port : UInt16} :
    portVisits ch perPort th port = [] ↔
      (filterCiBySendRecvQ (ch.patterns port) ((perPort.lookup port).getD []) th).keys.length = 0 := by
  rw [List.length_eq_zero_iff, List.eq_nil_iff_forall_not_mem, List.eq_nil_iff_forall_not_mem]
  apply Iff.intro
  · intro h k hk
    obtain ⟨cis, hl⟩ := GoMap.mem_iff_lookup.mp (AList.mem_keys.mpr hk)
    obtain ⟨he, hne, hlt⟩ := lookup_filterCi.mp hl
    obtain ⟨ci, rest, hcis⟩ := List.exists_cons_of_ne_nil hne
    refine h ⟨port, k, ci⟩ ((mem_portVisits ch perPort th).mpr ⟨rfl, ?_, he ▸ hlt⟩)
    rw [← he, hcis]
    rfl
  · intro h v hv
    obtain ⟨-, hhead, hlt⟩ := (mem_portVisits ch perPort th).mp hv
    apply h v.pattern
    refine AList.mem_keys.mp (GoMap.mem_iff_lookup.mpr ⟨_, lookup_filterCi.mpr ⟨rfl, ?_, hlt⟩⟩)
    intro hn
    rw [hn] at hhead
    cases hhead

/-- One port of the outer loop. -/
theorem told_port (port : UInt16) (s : SlowState) :
    let long := filterCiBySendRecvQ (ch.patterns port) ((perPort.lookup port).getD []) th
    Told ipNic s
      (if long.keys.length = 0 then { s with info := s.info.setType .tcpFull }
      else ((ch.patterns port).run long).foldl (slowPattern ipNic port)
        { s with info := (s.info.setType .tcpFull).setType .httpSlowRead })
      (portVisits ch perPort th port) := by
  intro long
  have hnil := @portVisits_eq_nil ch perPort th port
  by_cases hl : long.keys.length = 0
  · rw [if_pos hl, hnil.mpr hl]
    refine ⟨?_, ?_, ?_⟩
    · simp [setType_dev]
    · simp [mem_setType]
    · simp
  · rw [if_neg hl]
    obtain ⟨hdev, htype, hrules⟩ := @foldl_slowPattern ipNic port
      ((ch.patterns port).run long) { s with info := (s.info.setType .tcpFull).setType .httpSlowRead }
    refine ⟨?_, ?_, hrules⟩
    · rw [hdev]
      simp only [setType_dev]
      rfl
    · rw [htype, mem_setType]
      simp [mt hnil.mp hl]

theorem slowPorts_told (flows : List FlowStat) (s : SlowState) :
    Told ipNic s (slowPorts ch perPort th ipNic flows s) (slowVisits ch perPort th flows) := by
  induction flows generalizing s with
  | nil => exact told_refl s
  | cons stat flows ih =>
    rw [slowPorts]
    split
    next hlt =>
      have hstop : slowVisits ch perPort th (stat :: flows) = [] := by
        rw [slowVisits, List.takeWhile_cons_of_neg (by simpa using hlt), List.flatMap_nil]
      rw [hstop]
      exact told_refl s
    next hle =>
      have hgo : slowVisits ch perPort th (stat :: flows) =
          portVisits ch perPort th stat.key ++ slowVisits ch perPort th flows := by
        rw [slowVisits, List.takeWhile_cons_of_pos (by simpa using hle), List.flatMap_cons]
        rfl
      rw [hgo]
      exact (told_port ch perPort th stat.key s).append (ih _)

end Dni.Dms
