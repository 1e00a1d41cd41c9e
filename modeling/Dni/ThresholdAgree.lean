import Dni.ThresholdScores

namespace Dni

open Breakpoints LastGiven

/-- Both tasks put out the same, or both report an error. -/
def SameOutput (go : Option (Except String ℚ)) (cpp : Option (Except Int ℚ)) : Prop :=
  (∃ score, go = some (.ok score) ∧ cpp = some (.ok score)) ∨ ∃ e e', go = some (.error e) ∧ cpp = some (.error e')

/-- Each condition value reaches its condition. -/
def Reached (conditions condvals : List ℚ) : Prop :=
  ∀ (i : Nat) condition condval, conditions[i]? = some condition → condvals[i]? = some condval → condition ≤ condval

/-- The score last given for the greatest threshold that is not above the value. -/
def LastScore (ts : List ThresholdScore) (val score : ℚ) : Prop :=
  ∃ threshold, lastGiven (ts.map ThresholdScore.entry) threshold = some score ∧ threshold ≤ val ∧
    ∀ t ∈ ts, t.threshold ≤ val → t.threshold ≤ threshold

/-- That score where the conditions are reached and there is such a threshold, and the default otherwise. -/
def RightScore (reached : Prop) (ts : List ThresholdScore) (default val score : ℚ) : Prop :=
  reached ∧ LastScore ts val score ∨ ¬ (reached ∧ ∃ t ∈ ts, t.threshold ≤ val) ∧ score = default

section Loops

theorem reachesConditions_spec {conditions : List ℚ} (condvals : List ℚ) {id : Nat}
    (h : id + condvals.length ≤ conditions.length) :
    ∃ cond, reachesConditions conditions id condvals = some cond ∧
      (cond = true ↔ Reached (conditions.drop id) condvals) := by
  induction condvals generalizing id with
  | nil => exact ⟨true, rfl, iff_of_true rfl (by simp [Reached])⟩
  | cons condval condvals ih =>
    rw [List.length_cons] at h
    have hlt : id < conditions.length := by omega
    have hdrop := List.drop_eq_getElem_cons hlt
    have hcons : Reached (conditions.drop id) (condval :: condvals) ↔
        conditions[id] ≤ condval ∧ Reached (conditions.drop (id + 1)) condvals := by
      rw [hdrop]
      apply Iff.intro
      · intro hall
        exact ⟨hall 0 _ _ rfl rfl, fun i c v hc hv => hall (i + 1) c v hc hv⟩
      · intro ⟨hfirst, hrest⟩ i c v hc hv
        cases i with
        | zero =>
          cases hc
          cases hv
          exact hfirst
        | succ i => exact hrest i c v hc hv
    rw [hcons, reachesConditions, List.getElem?_eq_getElem hlt]
    by_cases hv : condval < conditions[id]
    · exact ⟨false, by simp [hv], by simp [hv]⟩
    · obtain ⟨cond, hcond, hiff⟩ := @ih (id + 1) (by omega)
      refine ⟨cond, by simp [hv, hcond], ?_⟩
      rw [hiff]
      exact ⟨fun hr => ⟨not_lt.mp hv, hr⟩, fun hr => hr.2⟩

theorem reachesConditions_first {conditions condvals : List ℚ} (h : condvals.length ≤ conditions.length) :
    ∃ cond, reachesConditions conditions 0 condvals = some cond ∧ (cond = true ↔ Reached conditions condvals) := by
  have hspec := @reachesConditions_spec conditions condvals 0 (by omega)
  rwa [List.drop_zero] at hspec

theorem countThresholds_eq (val : ℚ) (scoreId : Int) (thresholds : List ℚ) :
    countThresholds val scoreId thresholds = scoreId + thresholds.countP fun t => t ≤ val := by
  induction thresholds generalizing scoreId with
  | nil => simp [countThresholds]
  | cons t thresholds ih =>
    have hstep : countThresholds val scoreId (t :: thresholds) =
        countThresholds val (if t ≤ val then scoreId + 1 else scoreId) thresholds := rfl
    rw [hstep, ih, List.countP_cons]
    by_cases ht : t ≤ val
    · simp [ht]
      omega
    · simp [ht]

/-- In ascending order no threshold behind the first one that is not reached is reached. -/
theorem countFirstThresholds_eq (val : ℚ) (scoreId : Int) {thresholds : List ℚ} (h : thresholds.Pairwise (· < ·)) :
    countFirstThresholds val scoreId thresholds = countThresholds val scoreId thresholds := by
  rw [countThresholds_eq]
  induction thresholds generalizing scoreId with
  | nil => simp [countFirstThresholds]
  | cons t thresholds ih =>
    obtain ⟨hfirst, hrest⟩ := List.pairwise_cons.mp h
    rw [countFirstThresholds, List.countP_cons]
    by_cases ht : t ≤ val
    · rw [if_pos ht, ih _ hrest]
      simp [ht]
      omega
    · have hnone : thresholds.countP (fun t => t ≤ val) = 0 := by
        rw [List.countP_eq_zero]
        intro u hu huval
        exact ht ((hfirst u hu).le.trans (of_decide_eq_true huval))
      simp [ht, hnone]

theorem lastScore_eq (statistic score : ℚ) {l : List (ℚ × ℚ)} (h : l.Pairwise fun a b => a.1 < b.1) :
    Cpp.lastScore statistic score l = (floorValue l statistic).getD score := by
  induction l generalizing score with
  | nil => rfl
  | cons e l ih =>
    rw [Cpp.lastScore, floorValue_cons h]
    by_cases he : e.1 ≤ statistic
    · rw [if_pos he, if_pos he, ih _ (List.pairwise_cons.mp h).2, Option.getD_or, Option.getD_some]
    · rw [if_neg he, if_neg he, Option.getD_none]

/-- The index that is counted is the one of the score. -/
theorem scoreAt_countThresholds (m : Std.TreeMap ℚ ℚ) (default val : ℚ) :
    scoreAt m default (countThresholds val (-1) (m.toList.map Prod.fst)) =
      some ((floorValue m.toList val).getD default) := by
  rw [countThresholds_eq, List.countP_map, scoreAt]
  have hcount : m.toList.countP ((fun t => decide (t ≤ val)) ∘ Prod.fst) = m.toList.countP fun e => e.1 ≤ val := rfl
  rw [hcount, getElem?_floorValue (ascending m)]
  generalize hn : m.toList.countP (fun e => e.1 ≤ val) = n
  cases n with
  | zero => rfl
  | succ n =>
    have hlt : n < (m.toList.map Prod.snd).length := by
      have hle := List.countP_le_length (l := m.toList) (p := fun e => decide (e.1 ≤ val))
      rw [List.length_map]
      omega
    have hid : (-1 : Int) + (n + 1 : Nat) = n := by omega
    rw [hid, if_neg (by omega), if_neg (by omega), Int.toNat_natCast, Nat.add_sub_cancel,
      List.getElem?_eq_getElem hlt, Option.getD_some]

end Loops

section Scores

variable {ts : List ThresholdScore} {default val score : ℚ}

theorem lastScore_iff :
    LastScore ts val score ↔ floorValue (thresholdScoreMap ts).toList val = some score := by
  rw [LastScore, thresholdScoreMap, floorValue_ofList_eq_some]
  simp only [List.forall_mem_map, ThresholdScore.entry]

theorem exists_threshold_iff :
    (∃ t ∈ ts, t.threshold ≤ val) ↔ ∃ score, floorValue (thresholdScoreMap ts).toList val = some score := by
  rw [← Option.isSome_iff_exists, ← Option.ne_none_iff_isSome, Ne, thresholdScoreMap, floorValue_ofList_eq_none,
    List.forall_mem_map]
  push Not
  rfl

/-- There is one right score. -/
theorem rightScore_iff {reached : Prop} {cond : Bool} (hcond : cond = true ↔ reached) :
    RightScore reached ts default val score ↔
      score = if cond then (floorValue (thresholdScoreMap ts).toList val).getD default else default := by
  rw [RightScore, lastScore_iff, exists_threshold_iff, ← hcond]
  cases cond with
  | false => simp
  | true =>
    cases floorValue (thresholdScoreMap ts).toList val with
    | none => simp
    | some s => simp [eq_comm]

theorem RightScore.unique {reached : Prop} {score' : ℚ} (h : RightScore reached ts default val score)
    (h' : RightScore reached ts default val score') : score = score' := by
  classical
  have hcond : decide reached = true ↔ reached := decide_eq_true_iff
  rw [rightScore_iff hcond] at h h'
  rw [h, h']

end Scores

namespace ConditionThresholdOptions

variable (o : ConditionThresholdOptions) (taskName : String) (val : ℚ) {condvals : List ℚ}

theorem process_score (h : condvals.length ≤ o.conditions.length) :
    ∃ score, o.process taskName (.float64 val) (.float64s condvals) = some (.ok score) ∧
      RightScore (Reached o.conditions condvals) o.thresholdScores o.default val score := by
  obtain ⟨cond, hreaches, hcond⟩ := reachesConditions_first h
  refine ⟨_, ?_, (rightScore_iff hcond).mpr rfl⟩
  rw [process, if_neg (Nat.not_lt.mpr h), hreaches, Option.bind_some]
  cases cond with
  | false => rfl
  | true =>
    simp only [if_true]
    rw [scoreAt_countThresholds, Option.map_some]

theorem process_error (h : o.conditions.length < condvals.length) :
    ∃ e, o.process taskName (.float64 val) (.float64s condvals) = some (.error e) :=
  ⟨_, if_pos h⟩

end ConditionThresholdOptions

theorem ThresholdOptions.process_score (o : ThresholdOptions) (taskName : String) (val : ℚ) :
    ∃ score, o.process taskName (.float64 val) = some (.ok score) ∧
      RightScore True o.thresholdScores o.default val score := by
  have hcond : true = true ↔ True := iff_of_true rfl trivial
  refine ⟨_, ?_, (rightScore_iff hcond).mpr rfl⟩
  have hsorted : ((thresholdScoreMap o.thresholdScores).toList.map Prod.fst).Pairwise (· < ·) :=
    List.pairwise_map.mpr (ascending _)
  rw [process, countFirstThresholds_eq _ _ hsorted, scoreAt_countThresholds]
  rfl

namespace Cpp

/-- The default as the opened task has it: without thresholds it keeps its zero. -/
def openedDefault (ts : List ThresholdScore) (default : Option ℚ) : ℚ := if ts = [] then 0 else default.getD 0

theorem openScores_task (ts : List ThresholdScore) (default : Option ℚ) :
    (openScores ts default).2 = ⟨thresholdScoreMap ts, openedDefault ts default⟩ := by
  cases ts with
  | nil => rfl
  | cons t ts => rfl

theorem openedDefault_eq_iff (ts : List ThresholdScore) (default : Option ℚ) :
    openedDefault ts default = default.getD 0 ↔ ts ≠ [] ∨ default.getD 0 = 0 := by
  unfold openedDefault
  split
  next hnil => simp [hnil, eq_comm]
  next hne => simp [hne]

/-- Another default only shows where no threshold is reached. -/
theorem rightScore_default_iff {reached : Prop} {ts : List ThresholdScore} {default : Option ℚ} {val score : ℚ}
    (h : RightScore reached ts (default.getD 0) val score) :
    RightScore reached ts (openedDefault ts default) val score ↔ ts ≠ [] ∨ default.getD 0 = 0 := by
  rw [← openedDefault_eq_iff]
  apply Iff.intro
  · intro hopened
    by_cases hts : ts = []
    · subst hts
      have hscore : ∀ d, RightScore reached [] d val score → score = d := by
        intro d hd
        obtain ⟨_, _, hlast, _⟩ | ⟨_, hdefault⟩ := hd
        · cases hlast
        · exact hdefault
      exact (hscore _ hopened).symm.trans (hscore _ h)
    · exact if_neg hts
  · intro hd
    rwa [hd]

namespace CondThresholdTaskOptions

variable (o : CondThresholdTaskOptions) (val : ℚ) {condvals : List ℚ}

/-- The same options as the Go task has them; a default that is left out is zero. -/
def decoded : ConditionThresholdOptions := ⟨o.conditions, o.threshScores, o.default.getD 0⟩

theorem run_opened (stat cond : TaskData) : o.run stat cond = ConditionThresholdTask.process
    ⟨o.conditions, thresholdScoreMap o.threshScores, openedDefault o.threshScores o.default⟩ stat cond := by
  have htask := openScores_task o.threshScores o.default
  simp only [run, CondThresholdTaskOptions.open, htask]

theorem run_of_ne (hlen : condvals.length ≠ o.conditions.length) :
    o.run (.float64 val) (.float64s condvals) = some (.ok (-1)) := by
  rw [run_opened]
  exact if_pos hlen

theorem run_score (hlen : condvals.length = o.conditions.length) :
    ∃ score, o.run (.float64 val) (.float64s condvals) = some (.ok score) ∧
      RightScore (Reached o.conditions condvals) o.threshScores (openedDefault o.threshScores o.default) val score := by
  obtain ⟨cond, hreaches, hcond⟩ := reachesConditions_first hlen.le
  refine ⟨_, ?_, (rightScore_iff hcond).mpr rfl⟩
  rw [run_opened, ConditionThresholdTask.process, if_neg (not_not.mpr hlen), hreaches, Option.map_some,
    lastScore_eq _ _ (ascending _)]

/-- Data of another type are refused by both. -/
theorem cast_same (taskName : String) {stat cond : TaskData}
    (h : ∀ val condvals, ¬ (stat = .float64 val ∧ cond = .float64s condvals)) :
    SameOutput (o.decoded.process taskName stat cond) (o.run stat cond) := by
  refine Or.inr ⟨castError taskName, -1, ?_, ?_⟩
  · unfold ConditionThresholdOptions.process
    split
    next val condvals => exact absurd ⟨rfl, rfl⟩ (h val condvals)
    next => rfl
  · rw [run_opened]
    unfold ConditionThresholdTask.process
    split
    next val condvals => exact absurd ⟨rfl, rfl⟩ (h val condvals)
    next => rfl

/-- Both tasks put out the same or report an error, and with as many condition values as conditions they put out the
right score. -/
structure ScoresRight (taskName : String) (condvals : List ℚ) : Prop where
  same : SameOutput (o.decoded.process taskName (.float64 val) (.float64s condvals))
    (o.run (.float64 val) (.float64s condvals))
  score : condvals.length = o.conditions.length → ∃ score,
    o.decoded.process taskName (.float64 val) (.float64s condvals) = some (.ok score) ∧
    o.run (.float64 val) (.float64s condvals) = some (.ok score) ∧
    RightScore (Reached o.conditions condvals) o.threshScores (o.default.getD 0) val score

/-- As many condition values as conditions, and a threshold or no other default than zero; or fewer condition values
where the score that they give is the one that the C++ task puts out then. -/
def SameChecks (condvals : List ℚ) : Prop :=
  condvals.length = o.conditions.length ∧ (o.threshScores ≠ [] ∨ o.default.getD 0 = 0) ∨
    condvals.length < o.conditions.length ∧
      RightScore (Reached o.conditions condvals) o.threshScores (o.default.getD 0) val (-1)

theorem scoresRight_iff (taskName : String) (condvals : List ℚ) :
    o.ScoresRight val taskName condvals ↔ o.SameChecks val condvals := by
  obtain hlt | hlen | hgt := Nat.lt_trichotomy condvals.length o.conditions.length
  · obtain ⟨score, hgo, hright⟩ := o.decoded.process_score taskName val hlt.le
    have hcpp := run_of_ne o val hlt.ne
    have hiff : o.ScoresRight val taskName condvals ↔ score = -1 := by
      apply Iff.intro
      · intro h
        obtain ⟨s, hs, hs'⟩ | ⟨_, _, herr, _⟩ := h.same
        · rw [hgo] at hs
          rw [hcpp] at hs'
          cases hs
          cases hs'
          rfl
        · rw [hgo] at herr
          cases herr
      · intro hscore
        exact ⟨Or.inl ⟨-1, hscore ▸ hgo, hcpp⟩, fun hlen => absurd hlen hlt.ne⟩
    rw [hiff]
    apply Iff.intro
    · intro hscore
      exact Or.inr ⟨hlt, hscore ▸ hright⟩
    · intro h
      obtain ⟨hlen, _⟩ | ⟨_, hminus⟩ := h
      · exact absurd hlen hlt.ne
      · exact hright.unique hminus
  · obtain ⟨score, hgo, hright⟩ := o.decoded.process_score taskName val hlen.le
    obtain ⟨score', hcpp, hright'⟩ := run_score o val hlen
    have hiff : o.ScoresRight val taskName condvals ↔ o.threshScores ≠ [] ∨ o.default.getD 0 = 0 := by
      apply Iff.trans _ (rightScore_default_iff hright)
      apply Iff.intro
      · intro h
        obtain ⟨s, hs, hs', _⟩ := h.score hlen
        rw [hgo] at hs
        rw [hcpp] at hs'
        cases hs
        cases hs'
        exact hright'
      · intro hopened
        obtain rfl := hopened.unique hright'
        exact ⟨Or.inl ⟨score, hgo, hcpp⟩, fun _ => ⟨score, hgo, hcpp, hright⟩⟩
    rw [hiff, SameChecks]
    simp only [hlen, Nat.lt_irrefl, true_and, false_and, or_false]
  · obtain ⟨e, hgo⟩ := o.decoded.process_error taskName val hgt
    have hcpp := run_of_ne o val hgt.ne'
    refine iff_of_false (fun h => ?_) fun h => ?_
    · obtain ⟨_, hok, _⟩ | ⟨_, _, _, herr⟩ := h.same
      · rw [hgo] at hok
        cases hok
      · rw [hcpp] at herr
        cases herr
    · obtain ⟨hlen, _⟩ | ⟨hlt, _⟩ := h <;> omega

end CondThresholdTaskOptions

namespace ThresholdTaskOptions

variable (o : ThresholdTaskOptions) (val : ℚ)

def decoded : ThresholdOptions := ⟨o.threshScores, o.default.getD 0⟩

/-- Both tasks put out the right score. -/
def ScoresRight (taskName : String) : Prop :=
  SameOutput (o.decoded.process taskName (.float64 val)) (some (o.run (.float64 val))) ∧
    ∃ score, o.decoded.process taskName (.float64 val) = some (.ok score) ∧ o.run (.float64 val) = .ok score ∧
      RightScore True o.threshScores (o.default.getD 0) val score

theorem scoresRight_iff (taskName : String) :
    o.ScoresRight val taskName ↔ o.threshScores ≠ [] ∨ o.default.getD 0 = 0 := by
  obtain ⟨score, hgo, hright⟩ := o.decoded.process_score taskName val
  have hcond : true = true ↔ True := iff_of_true rfl trivial
  obtain ⟨score', hcpp, hright'⟩ : ∃ score', o.run (.float64 val) = .ok score' ∧
      RightScore True o.threshScores (openedDefault o.threshScores o.default) val score' := by
    refine ⟨_, ?_, (rightScore_iff hcond).mpr rfl⟩
    rw [run, ThresholdTaskOptions.open, openScores_task, ThresholdTask.process, lastScore_eq _ _ (ascending _)]
    rfl
  apply Iff.trans _ (rightScore_default_iff hright)
  apply Iff.intro
  · intro ⟨_, s, hs, hs', _⟩
    rw [hgo] at hs
    rw [hcpp] at hs'
    cases hs
    cases hs'
    exact hright'
  · intro hopened
    obtain rfl := hopened.unique hright'
    exact ⟨Or.inl ⟨score, hgo, congrArg some hcpp⟩, score, hgo, hcpp, hright⟩

end ThresholdTaskOptions

end Cpp

/-- With conditions the tasks agree on the right score exactly where their checks agree, and without conditions exactly
where there are thresholds or there is no default to be put out. -/
theorem threshold_tasks_agree_iff (taskName : String) (val : ℚ) :
    (∀ (o : Cpp.CondThresholdTaskOptions) condvals,
      o.ScoresRight val taskName condvals ↔ o.SameChecks val condvals) ∧
    ∀ o : Cpp.ThresholdTaskOptions, o.ScoresRight val taskName ↔ o.threshScores ≠ [] ∨ o.default.getD 0 = 0 :=
  ⟨fun o condvals => o.scoresRight_iff val taskName condvals, fun o => o.scoresRight_iff val taskName⟩

/-- One condition and one threshold. -/
def oneCondition : Cpp.CondThresholdTaskOptions := ⟨[2000], [⟨6, 1 / 5⟩], none⟩

/-- With a condition value too many the Go task reports an error and the C++ task puts out -1; without the condition
value the Go task puts out the score. Without thresholds the Go task puts out the default, and the C++ task zero. -/
theorem oneCondition_disagrees :
    ¬ oneCondition.ScoresRight 10 "A" [2000, 2000] ∧ ¬ oneCondition.ScoresRight 10 "A" [] ∧
      ¬ Cpp.ThresholdTaskOptions.ScoresRight ⟨[], some (3 / 10)⟩ 10 "A" := by
  refine ⟨fun h => ?_, fun h => ?_, ?_⟩
  · rw [Cpp.CondThresholdTaskOptions.scoresRight_iff, Cpp.CondThresholdTaskOptions.SameChecks] at h
    obtain ⟨hlen, _⟩ | ⟨hlt, _⟩ := h
    · cases hlen
    · exact absurd hlt (by decide)
  · rw [Cpp.CondThresholdTaskOptions.scoresRight_iff, Cpp.CondThresholdTaskOptions.SameChecks] at h
    obtain ⟨hlen, _⟩ | ⟨_, hright⟩ := h
    · cases hlen
    · obtain ⟨cond, hcond, hiff⟩ := @reachesConditions_first [2000] [] (by decide)
      cases hcond
      have hminus := (rightScore_iff hiff).mp hright
      revert hminus
      decide +kernel
  · rw [Cpp.ThresholdTaskOptions.scoresRight_iff]
    intro h
    obtain hne | hzero := h
    · exact hne rfl
    · revert hzero
      decide +kernel

end Dni
