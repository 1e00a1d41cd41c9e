import Dni.AttackerLevels

namespace Dni.Cpp.SndAttackerIPMergeTask

open GoMap Sieve

variable {F : Type} [FloatArith F] [LE F] [DecidableLE F] (t : SndAttackerIPMergeTask F)
  (ord : Nat → Order UInt32 Int)

theorem length_keys_eq_zero_iff {m : IPCount} {es : List (UInt32 × Int)} (h : (pairs m).Perm es) :
    m.keys.length = 0 ↔ es = [] := by
  have hk := congrArg List.length (pairs_keys m)
  rw [List.length_map] at hk
  rw [← hk, h.length_eq, List.length_eq_zero_iff]

/-- The addresses that a run reports as attackers. -/
def Reported (m : IPCount) (allKnownIps : List UInt32) (ip : UInt32) : Prop :=
  ∃ c ∈ (t.process ord m allKnownIps).1.attackerIPs, c.Covers ip

instance (m : IPCount) (allKnownIps : List UInt32) (ip : UInt32) :
    Decidable (t.Reported ord m allKnownIps ip) := inferInstanceAs (Decidable (∃ c ∈ _, _))

theorem program4_attackerIPs (s : Int) (m : IPCount) (known : List UInt32) (cidrs : List CIDR) :
    (t.program4 ord s m known cidrs).attackerIPs = cidrs := by
  unfold program4
  dsimp only
  split <;> rfl

/-- The total that the task computes, in 32 bits. -/
def total (m : IPCount) : Int := (mass (pairs m)).bmod (2 ^ 32)

theorem sumInts_run (o : Order UInt32 Int) (m : IPCount) : sumInts 32 ((o.run m).map Prod.snd) = total m := by
  have hmass : ((o.run m).map Prod.snd).sum = mass (pairs m) := mass_perm (o.perm m)
  rw [sumInts_eq, hmass, total]

/-- Program4 judges the residue, unless there is none. -/
theorem process_residue (m : IPCount) (allKnownIps : List UInt32) :
    ((t.process ord m allKnownIps).2.keys.length = 0 ∧
      (t.process ord m allKnownIps).1.containRandomAttack = false ∧
      (t.process ord m allKnownIps).1.randomIPs = []) ∨
    ((t.process ord m allKnownIps).2.keys.length ≠ 0 ∧ ∃ cidrs, (t.process ord m allKnownIps).1 =
      t.program4 ord (total m) (t.process ord m allKnownIps).2 allKnownIps cidrs) := by
  unfold process
  simp only [sumInts_run]
  split
  next h => exact Or.inl ⟨h, rfl, rfl⟩
  next =>
    split
    next h => exact Or.inl ⟨h, rfl, rfl⟩
    next =>
      split
      next h => exact Or.inl ⟨h, rfl, rfl⟩
      next h => exact Or.inr ⟨h, _, rfl⟩

/-- The histogram and the networks of a run are those of the plan. -/
theorem process_spec (m : IPCount) (allKnownIps : List UInt32) :
    (∀ a, t.Reported ord m allKnownIps a ↔
      (t.plan (total m)).Attacked (pairs m) a) ∧
    (pairs (t.process ord m allKnownIps).2).Perm ((t.plan (total m)).rest16 (pairs m)) := by
  have h1c := t.program1_covers ord (total m) m
  have h1r := t.program1_rest ord (total m) m
  unfold Reported process
  simp only [sumInts_run]
  generalize t.program1 ord (total m) m = r1 at h1c h1r ⊢
  obtain ⟨a32, df1⟩ := r1
  have h2c := t.program2_covers ord (total m) df1
  have h2r := (t.program2_rest ord (total m) df1).trans (Tier.rest_perm h1r)
  simp only [MergePlan.level24_perm h1r] at h2c
  generalize t.program2 ord (total m) df1 = r2 at h2c h2r ⊢
  obtain ⟨a24, df2⟩ := r2
  have h3c := t.program3_covers ord (total m) df2
  have h3r := (t.program3_rest ord (total m) df2).trans (Tier.rest_perm h2r)
  simp only [MergePlan.level16_perm h2r] at h3c
  generalize t.program3 ord (total m) df2 = r3 at h3c h3r ⊢
  obtain ⟨a16, df3⟩ := r3
  simp only at h1c h1r h2c h2r h3c h3r ⊢
  split
  next h1 =>
    rw [(length_keys_eq_zero_iff (List.Perm.refl _)).mp h1, List.nil_perm] at h1r
    have h24 : (t.plan (total m)).rest24 (pairs m) = [] := by rw [MergePlan.rest24, h1r]; rfl
    refine ⟨fun a => ?_, ?_⟩
    · simp [h1c, MergePlan.Attacked, h1r, h24, MergePlan.level24_nil, MergePlan.level16_nil]
    · rw [(length_keys_eq_zero_iff (List.Perm.refl _)).mp h1, MergePlan.rest16, h24]
      exact List.Perm.refl _
  next =>
    split
    next h2 =>
      rw [(length_keys_eq_zero_iff (List.Perm.refl _)).mp h2, List.nil_perm] at h2r
      have h24 : (t.plan (total m)).rest24 (pairs m) = [] := h2r
      refine ⟨fun a => ?_, ?_⟩
      · simp [h1c, h2c, or_and_right, exists_or, MergePlan.Attacked, h24, MergePlan.level16_nil]
      · rw [(length_keys_eq_zero_iff (List.Perm.refl _)).mp h2, MergePlan.rest16, h24]
        exact List.Perm.refl _
    next =>
      have hcov : ∀ a, (∃ c ∈ a32 ++ a24 ++ a16, c.Covers a) ↔
          (t.plan (total m)).Attacked (pairs m) a := fun a => by
        simp only [List.mem_append, or_and_right, exists_or, h1c, h2c, h3c, or_assoc]
        rfl
      split
      next => exact ⟨hcov, h3r⟩
      next =>
        refine ⟨fun a => ?_, h3r⟩
        rw [← hcov, program4_attackerIPs]

/-- Each /16 that program3 selects has enough addresses left, or all of them in its first /24. -/
def FirstNetOnly (m : IPCount) : Prop :=
  let p := t.plan (total m)
  ∀ e ∈ p.rest24 (pairs m), p.tier16.Hot (p.rest24 (pairs m)) (e.1 &&& 0xFFFF0000) →
    t.segCover (members 0xFFFF0000 (p.rest24 (pairs m)) (e.1 &&& 0xFFFF0000)).length ∨ e.1 &&& 0xFF00 = 0

theorem span16_self_iff (s : Int) (ips : List UInt32) (x : UInt32) :
    (t.plan s).Span16 ips (x &&& 0xFFFF0000) x ↔
      t.segCover ips.length ∨ x &&& 0xFF00 = 0 := by
  have hnarrow : x &&& 0xFFFFFF00 = x &&& 0xFFFF0000 ↔ x &&& 0xFF00 = 0 := by
    rw [← UInt32.toNat_inj, ← UInt32.toNat_inj, toNat_and_high, toNat_and_top, toNat_third]
    change _ ↔ _ = 0
    omega
  unfold MergePlan.Span16
  split
  next h => exact iff_of_true rfl (Or.inl h)
  next h =>
    change x &&& 0xFFFFFF00 = x &&& 0xFFFF0000 ↔ _
    rw [hnarrow]
    exact ⟨Or.inr, fun hor => hor.resolve_left h⟩

theorem process_conserves_iff (o : SndAttackerIPMergeTaskOptions F) (ord : Nat → Order UInt32 Int)
    (m : IPCount) (allKnownIps : List UInt32) :
    (Conserved m (o.open.process ord m allKnownIps).2 (o.open.Reported ord m allKnownIps) ↔
      o.open.FirstNetOnly m) ∧
    (ErasedReported m (o.open.process ord m allKnownIps).2 (o.open.Reported ord m allKnownIps) ↔
      o.open.FirstNetOnly m) := by
  obtain ⟨hrep, hrest⟩ := o.open.process_spec ord m allKnownIps
  have hcons : Conserved m (o.open.process ord m allKnownIps).2 (o.open.Reported ord m allKnownIps) ↔
      o.open.FirstNetOnly m := by
    rw [MergePlan.conserves_iff_conserved hrep hrest, MergePlan.conserves_iff]
    simp only [span16_self_iff]
    rfl
  exact ⟨hcons, (erasedReported_iff (MergePlan.lookup_of_rest hrest)).trans hcons⟩

def unsetOptions (F : Type) : SndAttackerIPMergeTaskOptions F := ⟨none, none, none, none, none, none⟩

/-- Under the default options all twelve leave the histogram and none is reported. -/
theorem process_loses_spread :
    ¬ Conserved spreadAttack ((unsetOptions Float).open.process (fun _ => Order.stored) spreadAttack []).2
      ((unsetOptions Float).open.Reported (fun _ => Order.stored) spreadAttack []) := by
  intro h
  have hgone : ((unsetOptions Float).open.process (fun _ => Order.stored) spreadAttack []).2.lookup 0x0A000101 =
      none := by decide +kernel
  rcases h 0x0A000101 9 (by decide +kernel) with hrep | hleft
  · exact absurd hrep (by decide +kernel)
  · rw [hgone] at hleft
    cases hleft

end Dni.Cpp.SndAttackerIPMergeTask
