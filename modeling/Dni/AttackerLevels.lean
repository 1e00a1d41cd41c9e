import Dni.AttackerCidrs

namespace Dni.Cpp

open GoMap Sieve

/-- Whether a group's count reaches the full threshold, or the half one where there are `n` groups. -/
def selectHot (full half : Int) (n : Nat) (count : Int) : Bool :=
  (if toSizeT full ≤ n then half else full) ≤ count.bmod (2 ^ 32)

theorem mem_selectKeys (ord : Order UInt32 Int) (mask : UInt32) (es : List (UInt32 × Int))
    (full half : Int) (g : UInt32) : g ∈ selectKeys ord (groupCounts 32 mask es) full half ↔
      (∃ e ∈ es, e.1 &&& mask = g) ∧ (maskTier mask (selectHot full half)).Hot es g := by
  have hl := length_groupCounts mask (selectHot full half) es 32
  have hc := lookup_groupCounts mask (selectHot full half) es g 32
  have hhot : (maskTier mask (selectHot full half)).Hot es g ↔
      (if toSizeT full ≤ (maskTier mask (selectHot full half)).groups es then half else full) ≤
        (mass ((maskTier mask (selectHot full half)).group es g)).bmod (2 ^ 32) := decide_eq_true_iff
  rw [hhot]
  simp only [selectKeys, List.mem_map, List.mem_filter, decide_eq_true_eq, hl]
  constructor
  · intro h
    rcases h with ⟨⟨g', c⟩, ⟨hrun, hle⟩, rfl⟩
    rw [Order.mem_run, hc] at hrun
    split at hrun
    next hex =>
      rw [← Option.some.inj hrun] at hle
      exact ⟨hex, hle⟩
    next => cases hrun
  · intro h
    rcases h with ⟨hex, hle⟩
    rw [if_pos hex] at hc
    exact ⟨(g, _), ⟨ord.mem_run.mpr hc, hle⟩, rfl⟩

namespace SndAttackerIPMergeTask

variable {F : Type} [FloatArith F] [LE F] [DecidableLE F] (t : SndAttackerIPMergeTask F)
  (ord : Nat → Order UInt32 Int)

/-- The three programs as levels of a plan. -/
def plan (ipCountSum : Int) : MergePlan where
  hot32 count := fullShare ipCountSum t.ipFw4CountRatio ≤ count
  hot24 := selectHot (fullShare ipCountSum t.ipFw3CountRatio) (halfShare ipCountSum t.ipFw3CountRatio)
  hot16 := selectHot (fullShare ipCountSum t.ipFw2CountRatio) (halfShare ipCountSum t.ipFw2CountRatio)
  cover := t.segCover
  narrow16 _ g a := a &&& 0xFFFFFF00 = g
  anyOrder _ := Iff.rfl
  within hg _ h := by rw [← and_top_of_and_high, h, hg]

variable (s : Int) (m : IPCount)

theorem program1_covers (a : UInt32) :
    (∃ c ∈ (t.program1 ord s m).1, c.Covers a) ↔ (t.plan s).Level32 (pairs m) a := by
  rw [← (t.plan s).mem_strong (ord 1)]
  constructor
  · intro h
    rcases h with ⟨c, hc, hcov⟩
    obtain ⟨ip, hip, rfl⟩ := List.mem_map.mp hc
    exact (CIDR.covers_32 ip a).mp hcov ▸ hip
  · exact fun h => ⟨⟨a, 32⟩, List.mem_map_of_mem h, (CIDR.covers_32 a a).mpr rfl⟩

theorem program1_rest :
    (pairs (t.program1 ord s m).2).Perm ((t.plan s).rest32 (pairs m)) :=
  (t.plan s).erase_strong (ord 1) m

/-- Programs 2 and 3 share this step: what is selected is reported, and its members leave. -/
theorem selected_covers {mask : UInt32} {full half : Int} {emit : UInt32 → List CIDR} {i j : Nat}
    (a : UInt32) : (∃ c ∈ (selectKeys (ord j) (groupCounts 32 mask ((ord i).run m)) full half).flatMap emit,
      c.Covers a) ↔ ∃ e ∈ pairs m,
        (maskTier mask (selectHot full half)).Hot (pairs m) (e.1 &&& mask) ∧
          ∃ c ∈ emit (e.1 &&& mask), c.Covers a := by
  simp only [List.mem_flatMap, mem_selectKeys, ((ord i).perm m).mem_iff, Tier.hot_perm ((ord i).perm m)]
  constructor
  · intro h
    rcases h with ⟨c, ⟨g, ⟨⟨e, he, rfl⟩, hhot⟩, hc⟩, hcov⟩
    exact ⟨e, he, hhot, c, hc, hcov⟩
  · intro h
    rcases h with ⟨e, he, hhot, c, hc, hcov⟩
    exact ⟨c, ⟨e.1 &&& mask, ⟨⟨e, he, rfl⟩, hhot⟩, hc⟩, hcov⟩

theorem program2_covers (a : UInt32) :
    (∃ c ∈ (t.program2 ord s m).1, c.Covers a) ↔ (t.plan s).Level24 (pairs m) a := by
  have hp := (ord 4).perm m
  refine (selected_covers ord m a).trans (exists_congr fun e => and_congr_right fun he =>
    and_congr_right fun _ => ?_)
  rw [t.fw3Cidrs_covers (hp.mem_iff.mpr he)]
  exact Span24.congr (members_perm hp _ _) _ _

theorem program2_rest :
    (pairs (t.program2 ord s m).2).Perm ((t.plan s).tier24.rest (pairs m)) :=
  pairs_erase_hot (ord 2) fun g => mem_selectKeys (ord 3) 0xFFFFFF00 ((ord 2).run m) _ _ g

theorem program3_covers (a : UInt32) :
    (∃ c ∈ (t.program3 ord s m).1, c.Covers a) ↔ (t.plan s).Level16 (pairs m) a := by
  have hp := (ord 7).perm m
  refine (selected_covers ord m a).trans (exists_congr fun e => and_congr_right fun he =>
    and_congr_right fun _ => ?_)
  rw [t.fw2Cidrs_covers (hp.mem_iff.mpr he)]
  exact MergePlan.span16_perm (p := t.plan s) (members_perm hp _ _) _ _

theorem program3_rest :
    (pairs (t.program3 ord s m).2).Perm ((t.plan s).tier16.rest (pairs m)) :=
  pairs_erase_hot (ord 5) fun g => mem_selectKeys (ord 6) 0xFFFF0000 ((ord 5).run m) _ _ g

end SndAttackerIPMergeTask

end Dni.Cpp
