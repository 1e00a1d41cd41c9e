import Dni.AttackerRandom
import Dni.SipDedupStats

namespace Dni

open GoMap

structure SndNumberStatsTaskOptions where
  numValueSum : Int
  ratioMin : ℚ
  ratioMax : ℚ
  scoreThresholds : List ℚ

namespace Cpp

/-- The opened task. -/
structure SndNumberStatsTask where
  min : ℚ
  max : ℚ
  scoreThresholds : Vector ℚ 4

end Cpp

/-- `Open`; another number of scores is its error return. -/
def SndNumberStatsTaskOptions.open (o : SndNumberStatsTaskOptions) : Option Cpp.SndNumberStatsTask :=
  if h : o.scoreThresholds.length = 4 then
    some ⟨o.numValueSum * o.ratioMin, o.numValueSum * o.ratioMax, ⟨o.scoreThresholds.toArray, h⟩⟩
  else none

/-- `Process` of the C++ task; an empty histogram is its error return. -/
def Cpp.SndNumberStatsTask.process (t : SndNumberStatsTask) (ord : Order UInt32 Int) (statsMap : IPCount) :
    Option ℚ :=
  let numKeyLen := statsMap.keys.length
  let keySeriesDiffTypeNum := diffTypeNum (ord.keys statsMap)
  if numKeyLen = 0 then none
  else if (numKeyLen : ℚ) < t.min then some t.scoreThresholds[0]
  else if (keySeriesDiffTypeNum : ℚ) ≤ t.min then some t.scoreThresholds[1]
  else if t.max ≤ (keySeriesDiffTypeNum : ℚ) then some t.scoreThresholds[2]
  else some t.scoreThresholds[3]

/-- `Process` of the Go task; `none` is an index out of range. -/
def SndNumberStatsTaskOptions.process (o : SndNumberStatsTaskOptions) (ord : Order UInt32 Int)
    (numFeatureMap : IPCount) : Option ℚ :=
  let numKeyLen := numFeatureMap.keys.length
  let keyDiffSeriesTypeNum := diffTypeNum (ord.keys numFeatureMap)
  let condthrehold := o.numValueSum * o.ratioMin
  if (numKeyLen : Int) < toInt condthrehold then o.scoreThresholds[0]?
  else if (keyDiffSeriesTypeNum : Int) ≤ toInt (o.numValueSum * o.ratioMin) then o.scoreThresholds[1]?
  else if toInt (o.numValueSum * o.ratioMax) ≤ (keyDiffSeriesTypeNum : Int) then o.scoreThresholds[2]?
  else o.scoreThresholds[3]?

/-- Some keys have fewer differences than keys. -/
theorem diffTypeNum_lt {keys : List UInt32} (h : keys ≠ []) : diffTypeNum keys < keys.length := by
  have hpos := List.length_pos_iff.mpr h
  have hdedup := (List.dedup_sublist (getDiff keys)).length_le
  have hdiff : (getDiff keys).length = min keys.length (keys.length - 1) := by
    rw [getDiff, List.length_zipWith, List.length_drop, List.length_insertionSort]
  rw [diffTypeNum]
  omega

section Scores

variable (n d : Nat) (q r : ℚ) (s : Vector ℚ 4)

/-- The score of n keys with d differences, between thresholds as they are. -/
def numberScore : ℚ :=
  if (n : ℚ) < q then s[0] else if (d : ℚ) ≤ q then s[1] else if r ≤ d then s[2] else s[3]

/-- The score between truncated thresholds. -/
def truncatedScore : ℚ :=
  if (n : Int) < toInt q then s[0] else if (d : Int) ≤ toInt q then s[1]
  else if toInt r ≤ (d : Int) then s[2] else s[3]

/-- Where truncation moves a threshold past the keys or the differences, the two scores are the same: the number of
keys is the integer part of a fractional first threshold; it is a negative fraction and there is no difference; or
the number of differences is the integer part of a fractional second one. -/
structure SameScores : Prop where
  few : n < q → q < n + 1 → s[0] = s[1]
  single : d = 0 → -1 < q → q < 0 → s[1] = if r ≤ 0 then s[2] else s[3]
  many : q < d → (d = 0 → q ≤ -1) → d < r → r < d + 1 → s[2] = s[3]

variable {n d}

theorem score_eq_iff (hd : d < n) : numberScore n d q r s = truncatedScore n d q r s ↔ SameScores n d q r s := by
  have hdn : (d : ℚ) + 1 ≤ n := by exact_mod_cast hd
  have hd0 : (0 : ℚ) ≤ d := Nat.cast_nonneg d
  have htruncated : truncatedScore n d q r s = if (n : ℚ) + 1 ≤ q then s[0]
      else if (d : ℚ) ≤ q ∨ d = 0 ∧ -1 < q then s[1] else if r < d + 1 then s[2] else s[3] := by
    simp only [truncatedScore, lt_toInt_iff, le_toInt_iff, toInt_le_iff]
  rw [htruncated, numberScore]
  by_cases hn : (n : ℚ) < q
  · have hnotMany : ¬ q < d := by linarith
    have hnotNeg : ¬ q < 0 := by linarith
    have hdq : (d : ℚ) ≤ q := by linarith
    rw [if_pos hn]
    by_cases hn' : (n : ℚ) + 1 ≤ q
    · rw [if_pos hn']
      exact iff_of_true rfl ⟨fun _ h => absurd h (not_lt.mpr hn'), fun _ _ h => absurd h hnotNeg,
        fun h => absurd h hnotMany⟩
    · rw [if_neg hn', if_pos (Or.inl hdq)]
      exact ⟨fun h => ⟨fun _ _ => h, fun _ _ h => absurd h hnotNeg, fun h => absurd h hnotMany⟩,
        fun h => h.few hn (not_le.mp hn')⟩
  · have hn' : ¬ (n : ℚ) + 1 ≤ q := by linarith
    rw [if_neg hn, if_neg hn']
    by_cases hdq : (d : ℚ) ≤ q
    · rw [if_pos hdq, if_pos (Or.inl hdq)]
      exact iff_of_true rfl ⟨fun h => absurd h hn, fun _ _ h => absurd h (not_lt.mpr (hd0.trans hdq)),
        fun h => absurd h (not_lt.mpr hdq)⟩
    · rw [if_neg hdq]
      by_cases hsingle : d = 0 ∧ -1 < q
      · obtain ⟨hzero, hq⟩ := hsingle
        subst hzero
        rw [Nat.cast_zero] at hdq
        rw [if_pos (Or.inr ⟨rfl, hq⟩), Nat.cast_zero]
        apply Iff.intro
        · intro h
          exact ⟨fun h => absurd h hn, fun _ _ _ => h.symm, fun _ h => absurd (h rfl) (not_le.mpr hq)⟩
        · intro h
          exact (h.single rfl hq (not_le.mp hdq)).symm
      · have hnone : ¬ ((d : ℚ) ≤ q ∨ d = 0 ∧ -1 < q) := fun h => h.elim hdq hsingle
        rw [if_neg hnone]
        by_cases hr : r ≤ d
        · have hr' : r < d + 1 := by linarith
          rw [if_pos hr, if_pos hr']
          exact iff_of_true rfl ⟨fun h => absurd h hn, fun h hq => absurd ⟨h, hq⟩ hsingle,
            fun _ _ h => absurd h (not_lt.mpr hr)⟩
        · rw [if_neg hr]
          by_cases hr' : r < d + 1
          · rw [if_pos hr']
            apply Iff.intro
            · intro h
              exact ⟨fun h => absurd h hn, fun h hq => absurd ⟨h, hq⟩ hsingle, fun _ _ _ _ => h.symm⟩
            · intro h
              exact (h.many (not_le.mp hdq) (fun hz => not_lt.mp fun hq => hsingle ⟨hz, hq⟩) (not_le.mp hr) hr').symm
          · rw [if_neg hr']
            exact iff_of_true rfl ⟨fun h => absurd h hn, fun h hq => absurd ⟨h, hq⟩ hsingle,
              fun _ _ _ h => absurd h hr'⟩

end Scores

namespace SndNumberStatsTaskOptions

variable {o : SndNumberStatsTaskOptions} {t : Cpp.SndNumberStatsTask}

theorem open_eq_some (h : o.open = some t) : o.scoreThresholds = t.scoreThresholds.toList ∧
    t.min = o.numValueSum * o.ratioMin ∧ t.max = o.numValueSum * o.ratioMax := by
  unfold SndNumberStatsTaskOptions.open at h
  split at h
  next =>
    rw [← Option.some.inj h]
    exact ⟨rfl, rfl, rfl⟩
  next => cases h

/-- Both outputs, from the number of keys and of their differences. -/
theorem process_eq (h : o.open = some t) {m : IPCount} (hne : m.keys ≠ []) (ord : Order UInt32 Int) :
    t.process ord m = some (numberScore m.keys.length (diffTypeNum m.keys) t.min t.max t.scoreThresholds) ∧
      o.process ord m = some (truncatedScore m.keys.length (diffTypeNum m.keys) t.min t.max t.scoreThresholds) := by
  obtain ⟨hscores, hmin, hmax⟩ := open_eq_some h
  have hdiff := diffTypeNum_perm (ord.keys_perm m)
  have hget : ∀ i : Fin 4, o.scoreThresholds[i.val]? = some t.scoreThresholds[i] := by
    intro i
    have hi := i.isLt
    rw [hscores, Vector.getElem?_toList, Vector.getElem?_eq_getElem hi]
    rfl
  have hlen : m.keys.length ≠ 0 := fun h => hne (List.length_eq_zero_iff.mp h)
  apply And.intro
  · rw [Cpp.SndNumberStatsTask.process, hdiff, if_neg hlen, numberScore]
    split
    next => rfl
    next =>
      split
      next => rfl
      next => split <;> rfl
  · rw [process, hdiff, ← hmin, ← hmax, truncatedScore]
    split
    next => exact hget 0
    next =>
      split
      next => exact hget 1
      next =>
        split
        next => exact hget 2
        next => exact hget 3

/-- The tasks put out the same score, and each the same for all histograms with the same keys, in every order. -/
structure NumberScoresRight (o : SndNumberStatsTaskOptions) (t : Cpp.SndNumberStatsTask) (m : IPCount) : Prop where
  agree : ∀ ord ord', t.process ord m = o.process ord' m
  keys : ∀ m' : IPCount, (∀ k, k ∈ m' ↔ k ∈ m) → ∀ ord ord',
    t.process ord' m' = t.process ord m ∧ o.process ord' m' = o.process ord m

theorem number_scores_iff (hopen : o.open = some t) {m : IPCount} (hne : m.keys ≠ []) :
    NumberScoresRight o t m ↔
      SameScores m.keys.length (diffTypeNum m.keys) t.min t.max t.scoreThresholds := by
  rw [← score_eq_iff t.min t.max t.scoreThresholds (diffTypeNum_lt hne)]
  apply Iff.intro
  · intro h
    obtain ⟨hcpp, hgo⟩ := process_eq hopen hne Order.stored
    exact Option.some.inj (hcpp.symm.trans ((h.agree _ _).trans hgo))
  · intro hsame
    refine ⟨?_, ?_⟩
    · intro ord ord'
      rw [(process_eq hopen hne ord).1, (process_eq hopen hne ord').2, hsame]
    · intro m' hkeys ord ord'
      have hperm : m'.keys.Perm m.keys := by
        apply (List.perm_ext_iff_of_nodup m'.nodupKeys m.nodupKeys).mpr
        intro k
        exact hkeys k
      have hne' : m'.keys ≠ [] := fun h => hne (List.perm_nil.mp (h ▸ hperm.symm))
      obtain ⟨hcpp, hgo⟩ := process_eq hopen hne ord
      obtain ⟨hcpp', hgo'⟩ := process_eq hopen hne' ord'
      rw [hperm.length_eq, diffTypeNum_perm hperm] at hcpp' hgo'
      exact ⟨hcpp'.trans hcpp.symm, hgo'.trans hgo.symm⟩

/-- A first threshold of five halves. -/
def halves : SndNumberStatsTaskOptions := ⟨25, 1 / 10, 5 / 10, [6 / 10, 1, 8 / 10, 0]⟩

/-- Two keys. -/
def twoKeys : IPCount := ((∅ : IPCount).insert 80 1).insert 443 1

/-- Thresholds of three and fifteen. -/
def wholes : SndNumberStatsTaskOptions := ⟨30, 1 / 10, 5 / 10, [6 / 10, 1, 8 / 10, 0]⟩

theorem number_scores_iff_wholes : ∃ t, wholes.open = some t ∧ NumberScoresRight wholes t twoKeys := by
  refine ⟨_, rfl, (number_scores_iff rfl (by decide)).mpr ⟨?_, ?_, ?_⟩⟩
  · intro _ h
    exact absurd h (by decide +kernel)
  · intro _ _ h
    exact absurd h (by decide +kernel)
  · intro h
    exact absurd h (by decide +kernel)

/-- Two keys are fewer than five halves, but not fewer than two. -/
theorem two_keys_differ : ∃ t, halves.open = some t ∧ ¬ NumberScoresRight halves t twoKeys := by
  refine ⟨_, rfl, ?_⟩
  intro h
  exact absurd (h.agree Order.stored Order.stored) (by decide +kernel)

end SndNumberStatsTaskOptions

end Dni
