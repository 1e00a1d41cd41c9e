import Dni.SuspectLevels

namespace Dni

open GoMap Sieve SortSearch Bytes Loops

/-- The IPv4 addresses of some networks. -/
def InNets (nets : List NetIPNet) (a : UInt32) : Prop := ∃ n ∈ nets, n.Covers (uiton a)

instance (nets : List NetIPNet) (a : UInt32) : Decidable (InNets nets a) :=
  inferInstanceAs (Decidable (∃ n ∈ nets, _ ∧ _))

theorem inNets_append (xs ys : List NetIPNet) (a : UInt32) :
    InNets (xs ++ ys) a ↔ InNets xs a ∨ InNets ys a := by
  simp only [InNets, List.mem_append, or_and_right, exists_or]

theorem inNets_flatten {sel : List UInt32} {netss : List (List NetIPNet)} {span : UInt32 → UInt32 → Prop}
    (h : List.Forall₂ (fun g nets => ∀ a, InNets nets a ↔ span g a) sel netss) (a : UInt32) :
    InNets netss.flatten a ↔ ∃ g ∈ sel, span g a := by
  constructor
  · intro h
    rcases h with ⟨n, hn, hcov⟩
    obtain ⟨nets, hnets, hn⟩ := List.mem_flatten.mp hn
    obtain ⟨g, hg, hspan⟩ := forall₂_exists_right h.flip hnets
    exact ⟨g, hg, (hspan a).mp ⟨n, hn, hcov⟩⟩
  · intro h
    rcases h with ⟨g, hg, hspan⟩
    obtain ⟨nets, hnets, hiff⟩ := forall₂_exists_right h hg
    obtain ⟨n, hn, hcov⟩ := (hiff a).mpr hspan
    exact ⟨n, List.mem_flatten.mpr ⟨nets, hnets, hn⟩, hcov⟩

/-- Steps 2 and 3 share this: the networks of every selected group are returned. -/
theorem mapM_suspectKeys (m : IPCount) (mask : UInt32) (thr : Int) (o o' : Order UInt32 Int)
    (emit : UInt32 → Option (List NetIPNet)) (span : List UInt32 → UInt32 → UInt32 → Prop)
    (hperm : ∀ {ips jps}, ips.Perm jps → ∀ g a, span ips g a ↔ span jps g a)
    (hemit : ∀ e ∈ o.run m, ∃ nets, emit (e.1 &&& mask) = some nets ∧
      ∀ a, InNets nets a ↔ span (members mask (o.run m) (e.1 &&& mask)) (e.1 &&& mask) a) :
    ∃ netss, (suspectKeys o' (groupCounts 64 mask (o.run m)) thr).mapM emit = some netss ∧
      ∀ a, InNets netss.flatten a ↔
        ∃ e ∈ pairs m, (maskTier mask (suspectHot thr)).Hot (pairs m) (e.1 &&& mask) ∧
          span (members mask (pairs m) (e.1 &&& mask)) (e.1 &&& mask) a := by
  have hp := o.perm m
  have hstep : ∀ g ∈ suspectKeys o' (groupCounts 64 mask (o.run m)) thr, ∃ nets, emit g = some nets ∧
      ∀ a, InNets nets a ↔ span (members mask (o.run m) g) g a := fun g hg => by
    obtain ⟨⟨e, he, rfl⟩, _⟩ := (mem_suspectKeys _ _ _ _ _).mp hg
    exact hemit e he
  obtain ⟨netss, hnets, hall⟩ := mapM_forall₂ hstep
  refine ⟨netss, hnets, fun a => ?_⟩
  rw [inNets_flatten hall]
  simp only [mem_suspectKeys, hp.mem_iff, Tier.hot_perm hp, hperm (members_perm hp mask _)]
  constructor
  · intro h
    rcases h with ⟨g, ⟨⟨e, he, rfl⟩, hhot⟩, hs⟩
    exact ⟨e, he, hhot, hs⟩
  · intro h
    rcases h with ⟨e, he, hhot, hs⟩
    exact ⟨e.1 &&& mask, ⟨⟨e, he, rfl⟩, hhot⟩, hs⟩

namespace SndAttackerIPMergeTask

variable {F : Type} [FloatArith F] (t : SndAttackerIPMergeOptions F) (ord : Nat → Order UInt32 Int)

/-- The three steps as levels of a plan. -/
def plan (s : F) : MergePlan where
  hot32 count := numThreshold s t.ipFw4CountRatio ≤ count
  hot24 := suspectHot (numThreshold s t.ipFw3CountRatio)
  hot16 := suspectHot (numThreshold s t.ipFw2CountRatio)
  cover := segCover t.ipSegCoverThreshold
  narrow16 ips _ a := Hull (ips.map (· &&& 0xFFFFFF00)) a
  anyOrder h := Hull.congr (fun _ => (h.map _).mem_iff) _
  within _ hm h := h.and_top fun z hz => by
    obtain ⟨x, hx, rfl⟩ := List.mem_map.mp hz
    rw [and_top_of_and_high, hm x hx]

variable (s : F) (m : IPCount)

theorem fw4_spec (o : Order UInt32 Int) :
    (∀ a, InNets (ipSuspectFW4 o m (numThreshold s t.ipFw4CountRatio)).1 a ↔
      (plan t s).Level32 (pairs m) a) ∧
    (pairs (ipSuspectFW4 o m (numThreshold s t.ipFw4CountRatio)).2).Perm ((plan t s).rest32 (pairs m)) := by
  refine ⟨fun a => ?_, (plan t s).erase_strong o m⟩
  rw [← (plan t s).mem_strong o]
  have hall : ∀ ip : UInt32, ip &&& uint32Max = ip := fun ip => UInt32.and_neg_one
  constructor
  · intro h
    rcases h with ⟨n, hn, hcov⟩
    obtain ⟨ip, hip, rfl⟩ := List.mem_map.mp hn
    rw [uitoin_covers, hall, hall] at hcov
    exact hcov ▸ hip
  · exact fun h => ⟨_, List.mem_map_of_mem h, (uitoin_covers a _ a).mpr rfl⟩

theorem fw3_spec (o : Nat → Order UInt32 Int) :
    ∃ nets df, ipSuspectFW3 o m (numThreshold s t.ipFw3CountRatio) t.ipSegCoverThreshold = some (nets, df) ∧
      (∀ a, InNets nets a ↔ (plan t s).Level24 (pairs m) a) ∧
      (pairs df).Perm ((plan t s).tier24.rest (pairs m)) := by
  obtain ⟨netss, hnets, hcov⟩ := mapM_suspectKeys m 0xFFFFFF00 (numThreshold s t.ipFw3CountRatio) (o 0) (o 1)
    (fun g => fw3Nets t.ipSegCoverThreshold (((groupMembers 0xFFFFFF00 ((o 0).run m)).lookup g).getD []) g)
    (Span24 (segCover t.ipSegCoverThreshold)) Span24.congr fun e he => by
      have hspec := fw3Nets_spec t.ipSegCoverThreshold (members_ne_nil 0xFFFFFF00 he) members_key
      rw [← getD_groupMembers he] at hspec ⊢
      exact hspec
  refine ⟨netss.flatten, _, ?_, hcov, pairs_erase_hot (o 0) fun g => mem_suspectKeys (o 1) _ _ _ g⟩
  simp only [ipSuspectFW3, hnets, Option.map_some]

theorem fw2_spec (o : Nat → Order UInt32 Int) :
    ∃ nets df, ipSuspectFW2 o m (numThreshold s t.ipFw2CountRatio) t.ipSegCoverThreshold = some (nets, df) ∧
      (∀ a, InNets nets a ↔ (plan t s).Level16 (pairs m) a) ∧
      (pairs df).Perm ((plan t s).tier16.rest (pairs m)) := by
  obtain ⟨netss, hnets, hcov⟩ := mapM_suspectKeys m 0xFFFF0000 (numThreshold s t.ipFw2CountRatio) (o 0) (o 1)
    (fun g => fw2Nets t.ipSegCoverThreshold (((groupMembers 0xFFFF0000 ((o 0).run m)).lookup g).getD [])
      (((groupValues 0xFFFF0000 (· &&& 0xFF00) ((o 0).run m)).lookup g).getD []) g)
    (plan t s).Span16 MergePlan.span16_perm fun e he => by
      have hspec := fw2Nets_spec t.ipSegCoverThreshold (members_ne_nil 0xFFFF0000 he) members_key
      rw [getD_groupValues he, getD_groupMembers he]
      exact hspec
  refine ⟨netss.flatten, _, ?_, hcov, pairs_erase_hot (o 0) fun g => mem_suspectKeys (o 1) _ _ _ g⟩
  simp only [ipSuspectFW2, hnets, Option.map_some]

/-- The three steps return and leave what the levels of a plan do. -/
structure Follows (p : MergePlan) (r : SuspectSteps) : Prop where
  nets32 : ∀ a, InNets r.nets32 a ↔ p.Level32 (pairs m) a
  df1 : (pairs r.df1).Perm (p.rest32 (pairs m))
  nets24 : ∀ a, InNets r.nets24 a ↔ p.Level24 (p.rest32 (pairs m)) a
  df2 : (pairs r.df2).Perm (p.rest24 (pairs m))
  nets16 : ∀ a, InNets r.nets16 a ↔ p.Level16 (p.rest24 (pairs m)) a
  df3 : (pairs r.df3).Perm (p.rest16 (pairs m))

theorem steps_spec : ∃ r, steps t ord m = some r ∧ Follows m (plan t (ipCountSum (ord 0) m)) r := by
  obtain ⟨s, hs⟩ : ∃ s : F, s = ipCountSum (ord 0) m := ⟨_, rfl⟩
  obtain ⟨h32, hd1⟩ := fw4_spec t s m (ord 1)
  obtain ⟨nets24, df2, hf3, h24, hd2⟩ := fw3_spec t s
    (ipSuspectFW4 (ord 1) m (numThreshold s t.ipFw4CountRatio)).2 fun i => ord (2 + i)
  obtain ⟨nets16, df3, hf2, h16, hd3⟩ := fw2_spec t s df2 fun i => ord (4 + i)
  have hd2' := hd2.trans (Tier.rest_perm hd1)
  rw [← hs]
  refine ⟨⟨_, _, nets24, df2, nets16, df3⟩, ?_, h32, hd1, ?_, hd2', ?_, hd3.trans (Tier.rest_perm hd2')⟩
  · simp only [steps, ← hs, hf3, Option.bind_some, hf2, Option.map_some]
  · exact fun a => (h24 a).trans (MergePlan.level24_perm hd1 a)
  · exact fun a => (h16 a).trans (MergePlan.level16_perm hd2' a)

/-- Each selected /16 has enough addresses left, or no address of it lies above the base address of
the last /24 it has addresses in. The thresholds are shares of the sum `s`. -/
def NoneAboveLastBase : Prop :=
  let p := plan t s
  ∀ e ∈ p.rest24 (pairs m), p.tier16.Hot (p.rest24 (pairs m)) (e.1 &&& 0xFFFF0000) →
    t.ipSegCoverThreshold ≤ (members 0xFFFF0000 (p.rest24 (pairs m)) (e.1 &&& 0xFFFF0000)).length ∨
      ∃ ip ∈ members 0xFFFF0000 (p.rest24 (pairs m)) (e.1 &&& 0xFFFF0000), e.1 ≤ ip &&& 0xFFFFFF00

theorem span16_self_iff {ips : List UInt32} {x : UInt32} (hx : x ∈ ips) :
    (plan t s).Span16 ips (x &&& 0xFFFF0000) x ↔
      t.ipSegCoverThreshold ≤ ips.length ∨ ∃ ip ∈ ips, x ≤ ip &&& 0xFFFFFF00 := by
  have hcov : t.ipSegCoverThreshold ≤ (ips.length : Int) ↔ (plan t s).cover ips.length = true :=
    decide_eq_true_iff.symm
  have hbase : x &&& 0xFFFFFF00 ≤ x := by
    rw [UInt32.le_iff_toNat_le, toNat_and_high]
    omega
  unfold MergePlan.Span16
  rw [hcov]
  split
  next h => exact iff_of_true rfl (Or.inl h)
  next h =>
    constructor
    · intro h
      rcases h with ⟨_, y, hy, hxy⟩
      obtain ⟨ip, hip, rfl⟩ := List.mem_map.mp hy
      exact Or.inr ⟨ip, hip, hxy⟩
    · intro hor
      obtain ⟨ip, hip, hxy⟩ := hor.resolve_left h
      exact ⟨⟨_, List.mem_map_of_mem hx, hbase⟩, _, List.mem_map_of_mem hip, hxy⟩

theorem steps_conserve_iff : ∃ r, steps t ord m = some r ∧
    (Conserved m r.df3 (InNets (r.nets32 ++ r.nets24 ++ r.nets16)) ↔ NoneAboveLastBase t (ipCountSum (ord 0) m) m) ∧
    (ErasedReported m r.df1 (InNets r.nets32) ∧ ErasedReported r.df1 r.df2 (InNets r.nets24) ∧
      ErasedReported r.df2 r.df3 (InNets r.nets16) ↔ NoneAboveLastBase t (ipCountSum (ord 0) m) m) := by
  obtain ⟨r, hr, hf⟩ := steps_spec t ord m
  have hspan : (∀ e ∈ (plan t (ipCountSum (ord 0) m)).rest24 (pairs m),
      (plan t (ipCountSum (ord 0) m)).tier16.Hot ((plan t (ipCountSum (ord 0) m)).rest24 (pairs m))
        (e.1 &&& 0xFFFF0000) → (plan t (ipCountSum (ord 0) m)).Span16 (members 0xFFFF0000
          ((plan t (ipCountSum (ord 0) m)).rest24 (pairs m)) (e.1 &&& 0xFFFF0000)) (e.1 &&& 0xFFFF0000) e.1) ↔
      NoneAboveLastBase t (ipCountSum (ord 0) m) m :=
    forall₂_congr fun e he => imp_congr_right fun _ =>
      span16_self_iff t _ (mem_members.mpr ⟨⟨e.2, he⟩, rfl⟩)
  have hrep : ∀ a, InNets (r.nets32 ++ r.nets24 ++ r.nets16) a ↔
      (plan t (ipCountSum (ord 0) m)).Attacked (pairs m) a := fun a => by
    rw [inNets_append, inNets_append, hf.nets32, hf.nets24, hf.nets16, or_assoc]
    rfl
  refine ⟨r, hr, ?_, ?_⟩
  · rw [MergePlan.conserves_iff_conserved hrep hf.df3, MergePlan.conserves_iff, hspan]
  · have h1 : ErasedReported m r.df1 (InNets r.nets32) :=
      (erasedReported_tier_iff (List.Perm.refl _) hf.df1).mpr fun e he hhot =>
        (hf.nets32 _).mpr (MergePlan.level32_of_hot he hhot)
    have h2 : ErasedReported r.df1 r.df2 (InNets r.nets24) :=
      (erasedReported_tier_iff hf.df1 hf.df2).mpr fun e he hhot =>
        (hf.nets24 _).mpr (MergePlan.level24_of_hot he hhot)
    have h3 : ErasedReported r.df2 r.df3 (InNets r.nets16) ↔ NoneAboveLastBase t (ipCountSum (ord 0) m) m := by
      rw [← hspan, erasedReported_tier_iff hf.df2 hf.df3]
      refine forall₂_congr fun e he => imp_congr_right fun hhot => ?_
      rw [hf.nets16]
      exact MergePlan.level16_at he hhot rfl
    rw [h3]
    exact ⟨fun h => h.2.2, fun h => ⟨h1, h2, h⟩⟩

def usualOptions (F : Type) [FloatArith F] : SndAttackerIPMergeOptions F :=
  ⟨FloatArith.tenths 1, FloatArith.tenths 2, FloatArith.tenths 4, FloatArith.tenths 5, 100, 2⟩

/-- Of the twelve spread addresses the last one lies above the range that is returned. -/
theorem steps_lose_spread : ¬ ∃ r, steps (usualOptions Float) (fun _ => Order.stored) spreadAttack = some r ∧
    Conserved spreadAttack r.df3 (InNets (r.nets32 ++ r.nets24 ++ r.nets16)) := by
  intro h
  rcases h with ⟨r, hr, h⟩
  have hrun : (steps (usualOptions Float) (fun _ => Order.stored) spreadAttack).map (fun r =>
      (r.df3.lookup 0x0A000C01, decide (InNets (r.nets32 ++ r.nets24 ++ r.nets16) 0x0A000C01))) =
        some (none, false) := by decide +kernel
  rw [hr, Option.map_some, Option.some.injEq, Prod.mk.injEq, decide_eq_false_iff_not] at hrun
  rcases h 0x0A000C01 9 (by decide +kernel) with hrep | hleft
  · exact hrun.2 hrep
  · rw [hrun.1] at hleft
    cases hleft

end SndAttackerIPMergeTask

end Dni
