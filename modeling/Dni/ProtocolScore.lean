import Dni.SipDedupFacts

namespace Dni

open GoMap

structure SndProtocolStatsTaskOptions where
  protoCountSum : Int
  ratioMin : ℚ
  ratioMax : ℚ
  scoreThresholds : List ℚ

namespace Cpp

/-- The opened task. -/
structure SndProtocolStatsTask where
  min : ℚ
  max : ℚ
  scoreThresholds : Vector ℚ 3

end Cpp

/-- `Open`; another number of scores is its error return. -/
def SndProtocolStatsTaskOptions.open (o : SndProtocolStatsTaskOptions) : Option Cpp.SndProtocolStatsTask :=
  if h : o.scoreThresholds.length = 3 then
    some ⟨o.protoCountSum * o.ratioMin, o.protoCountSum * o.ratioMax, ⟨o.scoreThresholds.toArray, h⟩⟩
  else none

namespace Cpp.SndProtocolStatsTask

variable (t : SndProtocolStatsTask)

/-- One protocol: the score and the highest score; below both thresholds the score stays. -/
def step (st : ℚ × ℚ) (protoStat : UInt32 × Int) : ℚ × ℚ :=
  let score := if t.max ≤ protoStat.2 then t.scoreThresholds[0]
    else if t.min ≤ protoStat.2 then t.scoreThresholds[1]
    else st.1
  (score, if st.2 < score then score else st.2)

/-- `Process`: it is the score that is put out, not the highest one. -/
def process (ord : Order UInt32 Int) (protoMap : IPCount) : ℚ :=
  ((ord.run protoMap).foldl t.step (t.scoreThresholds[2], 0)).1

end Cpp.SndProtocolStatsTask

/-- `Process` of the Go task; `none` is an index out of range. -/
def SndProtocolStatsTaskOptions.process (o : SndProtocolStatsTaskOptions) (ord : Order UInt32 Int)
    (ord' : Order UInt32 ℚ) (protoFeatureMap : IPCount) : Option ℚ :=
  (getProtoStatisticScore ord protoFeatureMap (o.protoCountSum : ℚ) o.ratioMin o.ratioMax o.scoreThresholds).map
    fun protoScoreMap => (ord'.run protoScoreMap).foldl (fun maxscore e => max e.2 maxscore) 0

/-- The highest of some scores, and zero for none. -/
def highest (scores : List ℚ) : ℚ := scores.foldl (fun maxscore score => max score maxscore) 0

/-- The score that a count earns between two thresholds. -/
def earned (min max : ℚ) (scores : Vector ℚ 3) (count : Int) : ℚ :=
  if max ≤ count then scores[0] else if min ≤ count then scores[1] else scores[2]

theorem highest_spec (scores : List ℚ) :
    (∀ x ∈ scores, x ≤ highest scores) ∧ 0 ≤ highest scores ∧ (highest scores = 0 ∨ highest scores ∈ scores) := by
  have hfold : ∀ (scores : List ℚ) (start : ℚ),
      (∀ x ∈ scores, x ≤ scores.foldl (fun maxscore score => max score maxscore) start) ∧
      start ≤ scores.foldl (fun maxscore score => max score maxscore) start ∧
      (scores.foldl (fun maxscore score => max score maxscore) start = start ∨
        scores.foldl (fun maxscore score => max score maxscore) start ∈ scores) := by
    intro scores
    induction scores with
    | nil => intro start; exact ⟨by simp, le_refl _, Or.inl rfl⟩
    | cons x scores ih =>
      intro start
      obtain ⟨hle, hstart, hmem⟩ := ih (max x start)
      rw [List.foldl_cons]
      refine ⟨?_, (le_max_right x start).trans hstart, ?_⟩
      · intro y hy
        obtain he | hy := List.mem_cons.mp hy
        · rw [he]
          exact (le_max_left x start).trans hstart
        · exact hle y hy
      · obtain he | hin := hmem
        · rw [he]
          obtain hx | hs := max_choice x start
          · exact Or.inr (by rw [hx]; exact List.mem_cons_self)
          · exact Or.inl hs
        · exact Or.inr (List.mem_cons_of_mem x hin)
  exact hfold scores 0

theorem highest_eq {scores : List ℚ} {x : ℚ} (hx : x ∈ scores) (hmax : ∀ y ∈ scores, y ≤ x) (hpos : 0 ≤ x) :
    highest scores = x := by
  obtain ⟨hle, _, hzero | hmem⟩ := highest_spec scores
  · exact le_antisymm (hzero.trans_le hpos) (hle x hx)
  · exact le_antisymm (hmax _ hmem) (hle x hx)

theorem highest_congr {xs ys : List ℚ} (h : ∀ x, x ∈ xs ↔ x ∈ ys) : highest xs = highest ys := by
  have hle : ∀ {xs ys : List ℚ}, (∀ x ∈ xs, x ∈ ys) → highest xs ≤ highest ys := by
    intro xs ys h
    obtain ⟨_, _, hzero | hmem⟩ := highest_spec xs
    · rw [hzero]
      exact (highest_spec ys).2.1
    · exact (highest_spec ys).1 _ (h _ hmem)
  exact le_antisymm (hle fun x => (h x).mp) (hle fun x => (h x).mpr)

/-- Of two scorings of the same counts one has the higher maximum where it beats every score of the other. -/
theorem highest_le_iff {counts : List Int} {f g : Int → ℚ} (hg : ∀ v ∈ counts, 0 ≤ g v) :
    highest (counts.map f) ≤ highest (counts.map g) ↔ ∀ v ∈ counts, ∃ v' ∈ counts, f v ≤ g v' := by
  obtain ⟨hf, _, hfmem⟩ := highest_spec (counts.map f)
  obtain ⟨hgle, hg0, hgmem⟩ := highest_spec (counts.map g)
  apply Iff.intro
  · intro h v hv
    have hfv := (hf _ (List.mem_map.mpr ⟨v, hv, rfl⟩)).trans h
    obtain hzero | hmem := hgmem
    · exact ⟨v, hv, (hfv.trans_eq hzero).trans (hg v hv)⟩
    · obtain ⟨v', hv', he⟩ := List.mem_map.mp hmem
      exact ⟨v', hv', by rw [he]; exact hfv⟩
  · intro h
    obtain hzero | hmem := hfmem
    · rw [hzero]
      exact hg0
    · obtain ⟨v, hv, he⟩ := List.mem_map.mp hmem
      obtain ⟨v', hv', hle⟩ := h v hv
      rw [← he]
      exact hle.trans (hgle _ (List.mem_map.mpr ⟨v', hv', rfl⟩))

theorem earned_mem (min max : ℚ) (scores : Vector ℚ 3) (count : Int) : earned min max scores count ∈ scores.toList := by
  unfold earned
  split
  next => exact Vector.mem_toList_iff.mpr (Vector.getElem_mem (by omega))
  next =>
    split
    next => exact Vector.mem_toList_iff.mpr (Vector.getElem_mem (by omega))
    next => exact Vector.mem_toList_iff.mpr (Vector.getElem_mem (by omega))

/-- The counts of a histogram. -/
def counts (m : IPCount) : List Int := (pairs m).map Prod.snd

theorem mem_counts {m : IPCount} {v : Int} : v ∈ counts m ↔ ∃ k, m.lookup k = some v := by
  simp only [counts, List.mem_map, Prod.exists, exists_eq_right, mem_pairs]

namespace Cpp.SndProtocolStatsTask

variable (t : SndProtocolStatsTask)

/-- A count that reaches a threshold. -/
def Meets (count : Int) : Prop := t.max ≤ count ∨ t.min ≤ count

def score (count : Int) : ℚ := earned t.min t.max t.scoreThresholds count

theorem step_score (st : ℚ × ℚ) (e : UInt32 × Int) :
    (t.Meets e.2 ∧ (t.step st e).1 = t.score e.2) ∨ (¬ t.Meets e.2 ∧ (t.step st e).1 = st.1) := by
  unfold step Meets score earned
  dsimp only
  split
  next hmax => exact Or.inl ⟨Or.inl hmax, rfl⟩
  next hmax =>
    split
    next hmin => exact Or.inl ⟨Or.inr hmin, rfl⟩
    next hmin => exact Or.inr ⟨fun h => h.elim hmax hmin, rfl⟩

/-- What the loop puts out is the score of some protocol that reaches a threshold, or the score it began with. -/
theorem score_carried (es : List (UInt32 × Int)) (st : ℚ × ℚ) :
    (∃ e ∈ es, t.Meets e.2 ∧ (es.foldl t.step st).1 = t.score e.2) ∨
      (∀ e ∈ es, ¬ t.Meets e.2) ∧ (es.foldl t.step st).1 = st.1 := by
  induction es generalizing st with
  | nil => exact Or.inr ⟨by simp, rfl⟩
  | cons e es ih =>
    rw [List.foldl_cons]
    obtain ⟨e', he', hmeets, hscore⟩ | ⟨hnone, hscore⟩ := ih (t.step st e)
    · exact Or.inl ⟨e', by simp [he'], hmeets, hscore⟩
    · obtain ⟨hmeets, hstep⟩ | ⟨hout, hstep⟩ := t.step_score st e
      · exact Or.inl ⟨e, by simp, hmeets, hscore.trans hstep⟩
      · exact Or.inr ⟨List.forall_mem_cons.mpr ⟨hout, hnone⟩, hscore.trans hstep⟩

theorem score_of_not_meets {count : Int} (h : ¬ t.Meets count) : t.score count = t.scoreThresholds[2] := by
  rw [score, earned, if_neg fun hmax => h (Or.inl hmax), if_neg fun hmin => h (Or.inr hmin)]

/-- The task puts out the highest score in every order exactly if each protocol that reaches a threshold earns it. -/
theorem process_highest_iff (hpos : ∀ x ∈ t.scoreThresholds.toList, 0 ≤ x) (m : IPCount) :
    (∀ ord, t.process ord m = highest ((counts m).map t.score)) ↔ (counts m = [] → t.scoreThresholds[2] = 0) ∧
      ∀ v ∈ counts m, t.Meets v → ∀ v' ∈ counts m, t.score v' ≤ t.score v := by
  have hscore : ∀ v, 0 ≤ t.score v := fun v => hpos _ (earned_mem _ _ _ v)
  have hmem : ∀ {v}, v ∈ counts m → t.score v ∈ (counts m).map t.score := fun hv => List.mem_map.mpr ⟨_, hv, rfl⟩
  have hrun : ∀ (ord : Order UInt32 Int) (e : UInt32 × Int), e ∈ ord.run m → e.2 ∈ counts m := by
    rintro ord ⟨k, v⟩ he
    exact mem_counts.mpr ⟨k, (ord.mem_run).mp he⟩
  apply Iff.intro
  · intro h
    refine ⟨?_, ?_⟩
    · intro hnil
      have hempty : Order.stored.run m = [] := List.map_eq_nil_iff.mp hnil
      have hout := h Order.stored
      rw [process, hempty, hnil] at hout
      exact hout
    · intro v hv hmeets v' hv'
      obtain ⟨k, hk⟩ := mem_counts.mp hv
      obtain ⟨es, hes⟩ := Order.last_run hk
      -- the protocol is visited last
      have hlast : t.process (Order.last k) m = t.score v := by
        rw [process, hes, List.foldl_append]
        obtain ⟨_, hstep⟩ | ⟨hout, _⟩ := t.step_score (es.foldl t.step (t.scoreThresholds[2], 0)) (k, v)
        · exact hstep
        · exact absurd hmeets hout
      rw [← hlast, h]
      exact (highest_spec _).1 _ (hmem hv')
  · rintro ⟨hempty, hmeets⟩ ord
    obtain ⟨e, he, hm, hout⟩ | ⟨hnone, hout⟩ := t.score_carried (ord.run m) (t.scoreThresholds[2], 0)
    · rw [process, hout]
      apply (highest_eq (hmem (hrun ord e he)) _ (hscore _)).symm
      intro y hy
      obtain ⟨v', hv', hy⟩ := List.mem_map.mp hy
      rw [← hy]
      exact hmeets e.2 (hrun ord e he) hm v' hv'
    · rw [process, hout]
      have hall : ∀ v ∈ counts m, t.score v = t.scoreThresholds[2] := by
        intro v hv
        obtain ⟨k, hk⟩ := mem_counts.mp hv
        exact t.score_of_not_meets (hnone (k, v) ((ord.mem_run).mpr hk))
      cases hc : counts m with
      | nil => exact hempty hc
      | cons v vs =>
        have hv : v ∈ counts m := by rw [hc]; exact List.mem_cons_self
        rw [← hc]
        apply (highest_eq (by rw [← hall v hv]; exact hmem hv) _ (by rw [← hall v hv]; exact hscore v)).symm
        intro y hy
        obtain ⟨v', hv', hy⟩ := List.mem_map.mp hy
        rw [← hy, hall v' hv']

end Cpp.SndProtocolStatsTask

namespace SndProtocolStatsTaskOptions

variable {o : SndProtocolStatsTaskOptions} {t : Cpp.SndProtocolStatsTask}

/-- The score of a count between the truncated thresholds. -/
def score (o : SndProtocolStatsTaskOptions) (t : Cpp.SndProtocolStatsTask) (count : Int) : ℚ :=
  earned (toInt (o.protoCountSum * o.ratioMin)) (toInt (o.protoCountSum * o.ratioMax)) t.scoreThresholds count

theorem open_eq_some (h : o.open = some t) : o.scoreThresholds = t.scoreThresholds.toList ∧
    t.min = o.protoCountSum * o.ratioMin ∧ t.max = o.protoCountSum * o.ratioMax := by
  unfold SndProtocolStatsTaskOptions.open at h
  split at h
  next =>
    rw [← Option.some.inj h]
    exact ⟨rfl, rfl, rfl⟩
  next => cases h

theorem process_eq_highest (h : o.open = some t) (ord : Order UInt32 Int) (ord' : Order UInt32 ℚ) (m : IPCount) :
    o.process ord ord' m = some (highest ((counts m).map (o.score t))) := by
  obtain ⟨hscores, _⟩ := open_eq_some h
  have hget : ∀ i : Fin 3, o.scoreThresholds[i.val]? = some t.scoreThresholds[i] := by
    intro i
    rw [hscores]
    have hi := i.isLt
    rw [Vector.getElem?_toList, Vector.getElem?_eq_getElem hi]
    rfl
  rw [process, getProtoStatisticScore_eq ord m _ _ _ hget, Option.map_some, Option.some.injEq]
  have hearned : ∀ v : Int,
      (if FloatArith.toInt (FloatArith.mul (o.protoCountSum : ℚ) o.ratioMax) ≤ v then t.scoreThresholds[(0 : Fin 3)]
      else if FloatArith.toInt (FloatArith.mul (o.protoCountSum : ℚ) o.ratioMin) ≤ v then
        t.scoreThresholds[(1 : Fin 3)]
      else t.scoreThresholds[(2 : Fin 3)]) = o.score t v := by
    intro v
    simp only [score, earned, Int.cast_le]
    rfl
  have hfun : ∀ e ∈ ord.run m, ∀ e' ∈ ord.run m, e.1 = e'.1 → o.score t e.2 = o.score t e'.2 := by
    rintro ⟨k, v⟩ he ⟨k', v'⟩ he' hk
    rw [Order.mem_run] at he he'
    dsimp only at hk
    subst hk
    rw [Option.some.inj (he.symm.trans he')]
  have hhighest : ∀ es : List (UInt32 × ℚ),
      es.foldl (fun maxscore e => max e.2 maxscore) 0 = highest (es.map Prod.snd) := by
    intro es
    rw [highest, List.foldl_map]
  simp only [hearned]
  rw [hhighest]
  apply highest_congr
  intro x
  simp only [List.mem_map, Prod.exists, exists_eq_right, Order.mem_run, lookup_foldl_insert hfun, AList.lookup_empty,
    reduceCtorEq, and_false, or_false, mem_counts]
  apply Iff.intro
  · intro h
    rcases h with ⟨_, k, v, hl, _, hx⟩
    exact ⟨v, ⟨k, hl⟩, hx⟩
  · intro h
    rcases h with ⟨v, ⟨k, hl⟩, hx⟩
    exact ⟨k, k, v, hl, rfl, hx⟩

/-- Both tasks put out the highest score that a count of the histogram earns, in every order of their maps. -/
structure ScoresRight (o : SndProtocolStatsTaskOptions) (t : Cpp.SndProtocolStatsTask) (m : IPCount) : Prop where
  cpp : ∀ ord, t.process ord m = highest ((counts m).map t.score)
  go : ∀ ord ord', o.process ord ord' m = some (highest ((counts m).map t.score))

/-- An empty histogram has the lowest score zero; a protocol that reaches a threshold earns the highest score of
all; and no score under the truncated thresholds beats those under the exact ones, nor the other way round. -/
structure ScoresSettled (o : SndProtocolStatsTaskOptions) (t : Cpp.SndProtocolStatsTask) (m : IPCount) : Prop where
  empty : counts m = [] → t.scoreThresholds[2] = 0
  meets : ∀ v ∈ counts m, t.Meets v → ∀ v' ∈ counts m, t.score v' ≤ t.score v
  truncated : ∀ v ∈ counts m, ∃ v' ∈ counts m, o.score t v ≤ t.score v'
  exact : ∀ v ∈ counts m, ∃ v' ∈ counts m, t.score v ≤ o.score t v'

theorem scores_right_iff (hopen : o.open = some t) (hpos : ∀ x ∈ o.scoreThresholds, 0 ≤ x) (m : IPCount) :
    ScoresRight o t m ↔ ScoresSettled o t m := by
  obtain ⟨hscores, _⟩ := open_eq_some hopen
  rw [hscores] at hpos
  have hcpp := t.process_highest_iff hpos m
  have hle := @highest_le_iff (counts m) (o.score t) t.score fun v _ => hpos _ (earned_mem _ _ _ v)
  have hge := @highest_le_iff (counts m) t.score (o.score t) fun v _ => hpos _ (earned_mem _ _ _ v)
  apply Iff.intro
  · intro h
    rcases h with ⟨hc, hg⟩
    have hsame := Option.some.inj ((process_eq_highest hopen Order.stored Order.stored m).symm.trans
      (hg Order.stored Order.stored))
    obtain ⟨hempty, hmeets⟩ := hcpp.mp hc
    exact ⟨hempty, hmeets, hle.mp hsame.le, hge.mp hsame.ge⟩
  · intro h
    rcases h with ⟨hempty, hmeets, htruncated, hexact⟩
    refine ⟨hcpp.mpr ⟨hempty, hmeets⟩, ?_⟩
    intro ord ord'
    rw [process_eq_highest hopen ord ord' m, le_antisymm (hle.mpr htruncated) (hge.mpr hexact)]

/-- The options of the test configurations. -/
def usual : SndProtocolStatsTaskOptions := ⟨10000, 1 / 10, 6 / 10, [8 / 10, 6 / 10, 0]⟩

/-- 3000 packets of TCP and 6000 of UDP. -/
def twoProtocols : IPCount := ((∅ : IPCount).insert 6 3000).insert 17 6000

/-- Both protocols lie between the thresholds. -/
def evenProtocols : IPCount := ((∅ : IPCount).insert 6 3000).insert 17 4000

theorem scores_right_iff_even : ∃ t, usual.open = some t ∧ ScoresRight usual t evenProtocols := by
  obtain ⟨t, ht⟩ : ∃ t, usual.open = some t := ⟨_, rfl⟩
  have heven : ∀ v ∈ counts evenProtocols, t.score v = 6 / 10 ∧ usual.score t v = 6 / 10 := by
    cases ht
    decide +kernel
  refine ⟨t, ht, (scores_right_iff ht (by decide +kernel) evenProtocols).mpr ⟨?_, ?_, ?_, ?_⟩⟩
  · exact fun h => absurd h (by decide +kernel)
  · exact fun v hv _ v' hv' => ((heven v' hv').1.trans (heven v hv).1.symm).le
  · exact fun v hv => ⟨v, hv, ((heven v hv).2.trans (heven v hv).1.symm).le⟩
  · exact fun v hv => ⟨v, hv, ((heven v hv).1.trans (heven v hv).2.symm).le⟩

/-- Where TCP is visited after UDP its lower score is put out. -/
theorem later_score_wins : ∃ t, usual.open = some t ∧ ¬ ScoresRight usual t twoProtocols := by
  refine ⟨_, rfl, ?_⟩
  intro h
  exact absurd (h.cpp (Order.last 6)) (by decide +kernel)

end SndProtocolStatsTaskOptions

end Dni
