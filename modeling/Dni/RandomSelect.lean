import Dni.AttackerAgree

namespace Dni.Cpp.SndAttackerIPMergeTask

open GoMap Sieve

variable (t : SndAttackerIPMergeTask ℚ) (m : IPCount) (known : List UInt32)

/-- The histogram that the three programs leave. -/
def left : List (UInt32 × Int) := (t.plan (total m)).rest16 (pairs m)

/-- The counts of the rare addresses left that are not known. -/
def rareSum : Int := mass ((t.left m).filter fun e => e.1 ∉ known ∧ e.2 ≤ t.ipRandCountThreshold)

/-- The counts of the rare addresses left that are known and passed over. -/
def passedSum : Int := mass ((t.left m).filter fun e => PassedOver known e.1 ∧ e.2 ≤ t.ipRandCountThreshold)

/-- A random attack is told by the sum of the rare unknown addresses, and these are the random ones. -/
structure SelectionRight (nodeRet : AttackerIPMergeResult) : Prop where
  decision : nodeRet.containRandomAttack = true ↔ total m * t.ipRandCountRatio ≤ (t.rareSum m known : ℚ)
  randomIPs : nodeRet.containRandomAttack = true →
    ∀ ip, ip ∈ nodeRet.randomIPs ↔ Rare (t.left m) known t.ipRandCountThreshold ip

/-- No rare address left is known but passed over. -/
def AllSeen : Prop := ∀ e ∈ t.left m, e.2 ≤ t.ipRandCountThreshold → ¬ PassedOver known e.1

theorem passedSum_eq_zero (h : t.AllSeen m known) : t.passedSum m known = 0 := by
  have hnil : ((t.left m).filter fun e => PassedOver known e.1 ∧ e.2 ≤ t.ipRandCountThreshold) = [] := by
    apply List.filter_eq_nil_iff.mpr
    intro e he hp
    rw [decide_eq_true_eq] at hp
    exact h e he hp.2 hp.1
  rw [passedSum, hnil]
  rfl

/-- The sum that decides counts the addresses passed over too. -/
theorem mass_candidates : mass (t.candidates known (t.left m)) = t.rareSum m known + t.passedSum m known := by
  have hsplit : t.candidates known (t.left m) = (t.left m).filter fun e =>
      decide (e.1 ∉ known ∧ e.2 ≤ t.ipRandCountThreshold) ||
        decide (PassedOver known e.1 ∧ e.2 ≤ t.ipRandCountThreshold) := by
    apply List.filter_congr
    intro e _
    rw [isCandidate, Bool.eq_iff_iff, Bool.or_eq_true, decide_eq_true_eq, decide_eq_true_eq, decide_eq_true_eq,
      imp_iff_not_or, or_and_right]
  rw [hsplit, mass_filter_or, rareSum, passedSum]
  intro e _
  rw [decide_eq_true_eq, decide_eq_true_eq]
  intro hboth
  exact hboth.1.1 hboth.2.1.1

theorem mem_candidates_of_allSeen (h : t.AllSeen m known) (ip : UInt32) :
    (∃ c, (ip, c) ∈ t.candidates known (t.left m)) ↔ Rare (t.left m) known t.ipRandCountThreshold ip := by
  simp only [candidates, List.mem_filter, isCandidate, decide_eq_true_eq, Rare]
  apply exists_congr
  intro c
  apply and_congr_right
  intro hc
  apply and_congr_left
  intro hle
  exact ⟨fun hin hk => h (ip, c) hc hle (hin hk), fun hout hk => absurd hk hout⟩

/-- The task selects right exactly if something is left, every rare known address left is seen and the
sum of the rare unknown ones reaches the share of the total, exactly and in 32 bits; or this sum falls
short, and so does in 32 bits the sum with the addresses passed over. -/
theorem process_selects_iff (o : SndAttackerIPMergeTaskOptions ℚ) (ord : Nat → Order UInt32 Int) (m : IPCount)
    (known : List UInt32) : o.open.SelectionRight m known (o.open.process ord m known).1 ↔
      o.open.left m ≠ [] ∧ o.open.AllSeen m known ∧
          total m * o.open.ipRandCountRatio ≤ (o.open.rareSum m known : ℚ) ∧
          total m * o.open.ipRandCountRatio ≤ ((o.open.rareSum m known).bmod (2 ^ 32) : ℚ) ∨
        (o.open.rareSum m known : ℚ) < total m * o.open.ipRandCountRatio ∧
          ((o.open.rareSum m known + o.open.passedSum m known).bmod (2 ^ 32) : ℚ) <
            total m * o.open.ipRandCountRatio := by
  obtain ⟨hdec, hips⟩ := o.open.process_random ord known m
  have hsum := o.open.mass_candidates m known
  have henough : o.open.Enough known (total m) (o.open.left m) ↔ total m * o.open.ipRandCountRatio ≤
      ((o.open.rareSum m known + o.open.passedSum m known).bmod (2 ^ 32) : ℚ) := by
    rw [← hsum]
    exact Iff.rfl
  change (_ ↔ o.open.left m ≠ [] ∧ o.open.Enough known (total m) (o.open.left m)) at hdec
  change (∀ ip, _ ↔ (o.open.left m ≠ [] ∧ o.open.Enough known (total m) (o.open.left m)) ∧
    ∃ c, (ip, c) ∈ o.open.candidates known (o.open.left m)) at hips
  rw [henough] at hdec hips
  constructor
  · intro ⟨hsame, hrandom⟩
    by_cases htaken : (o.open.process ord m known).1.containRandomAttack = true
    · obtain ⟨hne, hle⟩ := hdec.mp htaken
      have hseen : o.open.AllSeen m known := by
        intro e he hrare hpassed
        have hcand : ∃ c, (e.1, c) ∈ o.open.candidates known (o.open.left m) :=
          ⟨e.2, List.mem_filter.mpr ⟨he, decide_eq_true ⟨fun _ => hpassed, hrare⟩⟩⟩
        obtain ⟨_, _, hout, _⟩ := (hrandom htaken e.1).mp ((hips e.1).mpr ⟨⟨hne, hle⟩, hcand⟩)
        exact hout hpassed.1
      rw [o.open.passedSum_eq_zero m known hseen, Int.add_zero] at hle
      exact Or.inl ⟨hne, hseen, hsame.mp htaken, hle⟩
    · have hfew := not_le.mp (hsame.not.mp htaken)
      refine Or.inr ⟨hfew, ?_⟩
      by_cases hne : o.open.left m = []
      · have hrare : o.open.rareSum m known = 0 := by
          rw [rareSum, hne]
          rfl
        have hpassed : o.open.passedSum m known = 0 := by
          rw [passedSum, hne]
          rfl
        rw [hrare] at hfew
        rw [hrare, hpassed, Int.add_zero, Int.zero_bmod]
        exact hfew
      · exact not_le.mp fun hle => htaken (hdec.mpr ⟨hne, hle⟩)
  · intro h
    obtain ⟨hne, hseen, hexact, hbits⟩ | ⟨hfew, hshort⟩ := h
    · have hzero := o.open.passedSum_eq_zero m known hseen
      rw [hzero, Int.add_zero] at hdec hips
      refine ⟨iff_of_true (hdec.mpr ⟨hne, hbits⟩) hexact, fun _ ip => ?_⟩
      rw [hips, and_iff_right ⟨hne, hbits⟩]
      exact o.open.mem_candidates_of_allSeen m known hseen ip
    · have hno : ¬ (o.open.process ord m known).1.containRandomAttack = true :=
        fun htaken => not_le.mpr hshort (hdec.mp htaken).2
      exact ⟨iff_of_false hno (not_le.mpr hfew), fun htaken => absurd htaken hno⟩

/-- Of the sources of a random flood 10.0.0.1 is known, behind a larger address, and is put out as a
random one. -/
theorem known_selected : ¬ (unsetOptions ℚ).open.SelectionRight Dni.SndAttackerIPMergeTask.randomFlood
    [0x0A010001, 0x0A000001] ((unsetOptions ℚ).open.process (fun _ => Order.stored)
      Dni.SndAttackerIPMergeTask.randomFlood [0x0A010001, 0x0A000001]).1 := by
  intro h
  obtain ⟨_, _, hout, _⟩ := (h.randomIPs (by decide +kernel) 0x0A000001).mp (by decide +kernel)
  exact hout (by decide)

end Dni.Cpp.SndAttackerIPMergeTask
