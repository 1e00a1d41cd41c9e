import Dni.ErrorCollect
import Dni.Lib.Runs

namespace Dni

open Runs

variable {V : Type}

namespace ErrorState

/-- The call of `GetGraphErrorList` needs the mutex of a node. -/
def Waits (s : ErrorState V) (c a : Nat) : Prop :=
  (∃ rest errs, s.collect c = .visiting rest errs ∧ a ∈ rest) ∧
    ∀ errs, (s.node a).loop.calls (2 * c) ≠ .getNodeErrorList (.returned errs)

end ErrorState

namespace ErrorGraph

open ErrorState

variable {x : ErrorGraph} {s t : ErrorState V}

/-- A call that needs a mutex which `Execute` keeps goes on to need it. -/
theorem Collecting.blocked_step (h : x.Collecting s) {c a : Nat} (hw : s.Waits c a) (hs : (s.node a).loop.Stuck)
    {e : ErrorEvent V} (ht : x.step s e = some t) : t.Waits c a ∧ (t.node a).loop.Stuck := by
  obtain ⟨⟨rest, errs, hc, ha⟩, hwait⟩ := hw
  have hmoved : ∀ {e : NodeEvent} {t : ErrorState V}, (s.node a).loop.step e = some (t.node a).loop →
      t.collect = s.collect → t.Waits c a ∧ (t.node a).loop.Stuck := by
    intro e t hloop hcollect
    obtain ⟨hstuck, hcalls⟩ := hs.step (h.held a) hloop
    exact ⟨⟨⟨rest, errs, hcollect ▸ hc, ha⟩, hcalls _ hwait⟩, hstuck⟩
  have hkept : ∀ {t : ErrorState V}, (t.node a).loop = (s.node a).loop → t.collect c = s.collect c →
      t.Waits c a ∧ (t.node a).loop.Stuck := by
    intro t hloop hcollect
    rw [Waits, hloop, hcollect]
    exact ⟨⟨⟨rest, errs, hc, ha⟩, hwait⟩, hs⟩
  cases step_moves ht with
  | @node b e t he hloop hother hcollect hsends =>
    by_cases hb : a = b
    · subst hb
      exact hmoved hloop hcollect
    · exact hkept (by rw [hother a hb]) (congrFun hcollect c)
  | @send b t hloop hother hcollect hsends =>
    have hsame : (t.node a).loop = (s.node a).loop := by
      by_cases hb : a = b
      · rw [hb, hloop]
      · rw [hother a hb]
    exact hkept hsame (congrFun hcollect c)
  | @ask b c' rest' errs' loop hc' hloop =>
    by_cases hb : a = b
    · subst hb
      exact hmoved (by rwa [setLoop_same]) rfl
    · exact hkept (by rw [setLoop_ne hb]) rfl
  | @call c' hc' =>
    have hne : c ≠ c' := fun heq => by
      subst heq
      rw [hc] at hc'
      cases hc'
    exact hkept rfl (setCollect_collect.trans (if_neg hne))
  | @take b c' rest' errs' nodeErrs hc' hnode =>
    by_cases hne : c = c'
    · subst hne
      rw [hc] at hc'
      cases hc'
      -- the visited node has answered, so that it is not the one that is needed
      have hab : a ≠ b := fun heq => hwait nodeErrs (heq ▸ hnode)
      exact ⟨⟨⟨rest', _, setCollect_collect.trans (if_pos rfl), (List.mem_cons.mp ha).resolve_left hab⟩, hwait⟩, hs⟩
    · exact hkept rfl (setCollect_collect.trans (if_neg hne))
  | @finish c' errs' hc' =>
    have hne : c ≠ c' := fun heq => by
      subst heq
      rw [hc] at hc'
      cases hc'
      cases ha
    exact hkept rfl (setCollect_collect.trans (if_neg hne))

/-- One step of a node towards the return of its calls is one of the graph. -/
theorem forward_step {a : Nat} (ha : a < x.size) {l : NodeLoop} (hl : NodeLoop.Forward (s.node a).loop l)
    (hsends : ∀ allok, (s.node a).loop.pos = .held allok → (s.node a).sends = []) :
    (∃ e, x.step s e = some (s.setLoop a l)) ∧ ∀ allok, l.pos = .held allok → (s.node a).sends = [] := by
  obtain ⟨c, hnext⟩ | ⟨⟨allok, hp⟩, hexecute⟩ := hl
  · refine ⟨⟨.next a c, ?_⟩, ?_⟩
    · rw [step, if_pos ha, hnext]
      rfl
    · rw [call_pos (.inl hnext)]
      exact hsends
  · refine ⟨⟨.execute a [] ⟨0, [], [], none⟩, ?_⟩, fun allok' hp' => hsends allok hp⟩
    have hloop : (s.node a).loop.execute [] none = some l := hexecute
    simp only [step, if_pos ha, execute, hsends allok hp, hloop, Option.bind_some, hp]

theorem forward_run {a : Nat} (ha : a < x.size) {l₀ l : NodeLoop} (hl : Relation.ReflTransGen NodeLoop.Forward l₀ l)
    (hs : (s.node a).loop = l₀) (hsends : ∀ allok, l₀.pos = .held allok → (s.node a).sends = []) :
    ∃ es : List (ErrorEvent V), es.foldlM x.step s = some (s.setLoop a l) := by
  induction hl using Relation.ReflTransGen.head_induction_on generalizing s with
  | refl => exact ⟨[], by rw [← hs, setLoop_self]; rfl⟩
  | @head l₁ l₂ hstep _ ih =>
    subst hs
    obtain ⟨⟨e, he⟩, hsends'⟩ := forward_step ha hstep hsends
    obtain ⟨es, hes⟩ := @ih (s.setLoop a l₂) (setLoop_same l₂) (by rwa [setLoop_sends])
    rw [setLoop_setLoop] at hes
    exact ⟨e :: es, by rw [List.foldlM_cons, he]; exact hes⟩

theorem Collecting.run (hnd : x.sortedNodes.Nodup) (h : x.Collecting s) {es : List (ErrorEvent V)}
    (ht : es.foldlM x.step s = some t) : x.Collecting t :=
  run_preserves (fun _ _ _ hs hstep => hs.step hnd hstep) h ht

/-- A node whose mutex is not stuck returns to the call that has asked it; the other nodes are as they were. -/
theorem Collecting.returns (h : x.Collecting s) {c a : Nat} (ha : a < x.size) (hfree : ¬ (s.node a).loop.Stuck)
    {pos : LockAt (List String)} (hcalls : (s.node a).loop.calls (2 * c) = .getNodeErrorList pos) :
    ∃ (es : List (ErrorEvent V)) (t : ErrorState V) (nodeErrs : List String), es.foldlM x.step s = some t ∧
      t.collect = s.collect ∧ (∀ b, b ≠ a → t.node b = s.node b) ∧
      (t.node a).loop.calls (2 * c) = .getNodeErrorList (.returned nodeErrs) := by
  obtain ⟨loop, nodeErrs, hloop, hreturned⟩ := (h.held a).returns hfree hcalls
  have hsends : ∀ allok, (s.node a).loop.pos = .held allok → (s.node a).sends = [] := by
    intro allok hp
    by_contra hne
    rw [h.head a hne] at hp
    cases hp
  obtain ⟨es, hes⟩ := forward_run ha hloop rfl hsends
  exact ⟨es, s.setLoop a loop, nodeErrs, hes, rfl, fun b hb => setLoop_ne hb _, by rw [setLoop_same, hreturned]⟩

/-- The visited node gives its list, unless its mutex is stuck; the other nodes are as they were. -/
theorem Collecting.asks (h : x.Collecting s) (hnd : x.sortedNodes.Nodup) {c a : Nat} (ha : a < x.size) {rest : List Nat}
    {errs : List String} (hc : s.collect c = .visiting (a :: rest) errs)
    (hfree : (∀ errs, (s.node a).loop.calls (2 * c) ≠ .getNodeErrorList (.returned errs)) → ¬ (s.node a).loop.Stuck) :
    ∃ (es : List (ErrorEvent V)) (t : ErrorState V) (nodeErrs : List String), es.foldlM x.step s = some t ∧
      t.collect = s.collect ∧ (∀ b, b ≠ a → t.node b = s.node b) ∧
      (t.node a).loop.calls (2 * c) = .getNodeErrorList (.returned nodeErrs) := by
  cases hcalls : (s.node a).loop.calls (2 * c) with
  | none =>
    have hloop : (s.node a).loop.step (.getNodeErrorList (2 * c)) =
        some ((s.node a).loop.goto (2 * c) (.getNodeErrorList .called)) := by
      rw [NodeLoop.step, hcalls]
    have hstep : x.step s (.collect c) =
        some (s.setLoop a ((s.node a).loop.goto (2 * c) (.getNodeErrorList .called))) := by
      simp only [ErrorGraph.step, ErrorGraph.collect, hc, hcalls, hloop, Option.map_some]
    obtain ⟨es, t, nodeErrs, hes, hcollect, hother, hreturned⟩ := (h.step hnd hstep).returns ha
      (by rw [setLoop_same]; exact hfree (by simp [hcalls]))
      (by rw [setLoop_same]; exact NodeLoop.calls_goto.trans (if_pos rfl))
    refine ⟨.collect c :: es, t, nodeErrs, ?_, hcollect, fun b hb => (hother b hb).trans (setLoop_ne hb _), hreturned⟩
    rw [List.foldlM_cons, hstep]
    exact hes
  | destroy pos => exact absurd hcalls (h.kind a c pos)
  | getNodeErrorList pos =>
    cases pos with
    | returned nodeErrs => exact ⟨[], s, nodeErrs, rfl, rfl, fun _ _ => rfl, hcalls⟩
    | called => exact h.returns ha (hfree (by simp [hcalls])) hcalls
    | locking => exact h.returns ha (hfree (by simp [hcalls])) hcalls
    | locked => exact h.returns ha (hfree (by simp [hcalls])) hcalls

/-- A call goes through all nodes when none of those whose mutex it needs keeps it. The induction is on the nodes that
are left to visit. -/
theorem Collecting.finishes (h : x.Collecting s) (hnd : x.sortedNodes.Nodup) (hsize : ∀ a ∈ x.sortedNodes, a < x.size)
    {c : Nat} {rest : List Nat} {errs : List String} (hc : s.collect c = .visiting rest errs)
    (hfree : ∀ a, s.Waits c a → ¬ (s.node a).loop.Stuck) :
    ∃ (es : List (ErrorEvent V)) (t : ErrorState V) (errs : List String),
      es.foldlM x.step s = some t ∧ t.collect c = .returned errs := by
  induction rest generalizing s errs with
  | nil =>
    have hstep : x.step s (.collect c) = some (s.setCollect c (.returned errs)) := by
      simp only [ErrorGraph.step, ErrorGraph.collect, hc]
    exact ⟨[.collect c], _, errs, by rw [List.foldlM_cons, hstep]; rfl, setCollect_collect.trans (if_pos rfl)⟩
  | cons a rest ih =>
    obtain ⟨_, hnodup, hsub, hnone⟩ := h.visiting c _ errs hc
    have ha : a < x.size := hsize a (hsub List.mem_cons_self)
    obtain ⟨es, t, nodeErrs, hes, hcollect, hother, hreturned⟩ :=
      h.asks hnd ha hc fun hwait => hfree a ⟨⟨_, _, hc, List.mem_cons_self⟩, hwait⟩
    have hvisit : t.collect c = .visiting (a :: rest) errs := (congrFun hcollect c).trans hc
    have hstep : x.step t (.collect c) = some (t.setCollect c (.visiting rest (errs ++ nodeErrs))) := by
      simp only [ErrorGraph.step, ErrorGraph.collect, hvisit, hreturned]
    have hnext : (t.setCollect c (.visiting rest (errs ++ nodeErrs))).collect c = .visiting rest (errs ++ nodeErrs) :=
      setCollect_collect.trans (if_pos rfl)
    obtain ⟨es', u, errs', hes', hu⟩ := ih ((h.run hnd hes).step hnd hstep) hnext fun b hw => by
      obtain ⟨⟨rest', errs', hc', hb⟩, hwait⟩ := hw
      rw [hnext] at hc'
      cases hc'
      have hba : b ≠ a := fun heq => (List.nodup_cons.mp hnodup).1 (heq ▸ hb)
      rw [setCollect_node, hother b hba] at hwait ⊢
      exact hfree b ⟨⟨_, _, hc, List.mem_cons_of_mem _ hb⟩, hwait⟩
    refine ⟨es ++ .collect c :: es', u, errs', ?_, hu⟩
    rw [List.foldlM_append, hes, Option.bind_eq_bind, Option.bind_some, List.foldlM_cons, hstep]
    exact hes'

end ErrorGraph

namespace ErrorState

/-- The errors that a node has recorded. -/
def errors (s : ErrorState V) (a : Nat) : List String := (s.node a).loop.errorList

end ErrorState

/-- An answer between two states: each node once with a list of its errors, in their order, that has all those of the
first state and none that is not in the second one. -/
def ErrorGraph.Answers (x : ErrorGraph) (s t : ErrorState V) (errs : List String) : Prop :=
  ∃ (order : List Nat) (nodeErrs : Nat → List String), order.Perm (List.range x.size) ∧
    errs = order.flatMap nodeErrs ∧ ∀ a < x.size, s.errors a <+: nodeErrs a ∧ nodeErrs a <+: t.errors a

/-- The call made in the state `s` can still return in the state `t`, and returns the errors recorded so far. -/
def ErrorGraph.Collects (x : ErrorGraph) (s t : ErrorState V) (c : Nat) : Prop :=
  (∃ (es : List (ErrorEvent V)) (u : ErrorState V) (errs : List String),
    es.foldlM x.step t = some u ∧ u.collect c = .returned errs) ∧
  ∀ (es : List (ErrorEvent V)) (u : ErrorState V) (errs : List String),
    es.foldlM x.step t = some u → u.collect c = .returned errs → x.Answers s u errs

namespace ErrorGraph

open ErrorState

variable {x : ErrorGraph} {s t : ErrorState V}

/-- No call that waits for a kept mutex returns. -/
theorem Collecting.blocked (hnd : x.sortedNodes.Nodup) (h : x.Collecting s) {c a : Nat} (hw : s.Waits c a)
    (hs : (s.node a).loop.Stuck) {es : List (ErrorEvent V)} (ht : es.foldlM x.step s = some t) (errs : List String) :
    t.collect c ≠ .returned errs := by
  have hinv := @run_preserves _ _ x.step (fun s => x.Collecting s ∧ s.Waits c a ∧ (s.node a).loop.Stuck)
    (fun _ _ _ hi hstep => ⟨hi.1.step hnd hstep, hi.1.blocked_step hi.2.1 hi.2.2 hstep⟩) s t ⟨h, hw, hs⟩ es ht
  obtain ⟨_, ⟨⟨rest, errs', hc, _⟩, _⟩, _⟩ := hinv
  rw [hc]
  exact nofun

theorem Collecting.collects_iff (hnd : x.sortedNodes.Nodup) (hsize : ∀ a ∈ x.sortedNodes, a < x.size)
    (h : x.Collecting t) {c : Nat} (hc : t.collect c ≠ .none) :
    x.Collects s t c ↔ (∀ a < x.size, s.errors a = []) ∧ ∀ a, t.Waits c a → ¬ (t.node a).loop.Stuck := by
  apply Iff.intro
  · intro ⟨⟨es, u, errs, hes, hu⟩, hright⟩
    obtain ⟨order, nodeErrs, hperm, herrs, hbetween⟩ := hright es u errs hes hu
    refine ⟨fun a ha => ?_, fun a hw hs => h.blocked hnd hw hs hes errs hu⟩
    have hempty := (h.run hnd hes).returned c errs hu
    rw [hempty, eq_comm, List.flatMap_eq_nil_iff] at herrs
    have hnone := herrs a (hperm.mem_iff.mpr (List.mem_range.mpr ha))
    exact List.prefix_nil.mp (hnone ▸ (hbetween a ha).1)
  · intro ⟨hnone, hfree⟩
    refine ⟨?_, fun es u errs hes hu => ?_⟩
    · cases hpos : t.collect c with
      | none => exact absurd hpos hc
      | visiting rest errs => exact h.finishes hnd hsize hpos hfree
      | returned errs => exact ⟨[], t, errs, rfl, hpos⟩
    · refine ⟨List.range x.size, fun _ => [], .refl _, ?_, fun a ha => ⟨?_, List.nil_prefix⟩⟩
      · rw [(h.run hnd hes).returned c errs hu, eq_comm, List.flatMap_eq_nil_iff]
        exact fun _ _ => rfl
      · rw [hnone a ha]

end ErrorGraph

end Dni
