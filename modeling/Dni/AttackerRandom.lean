import Dni.AttackerConserve
import Dni.SuspectConserve
import Mathlib.Data.List.TakeWhile

namespace Dni

open GoMap Sieve

/-- An address of the residue that is neither known nor counted too often. -/
def Rare (es : List (UInt32 × Int)) (known : List UInt32) (thr : Int) (ip : UInt32) : Prop :=
  ∃ c, (ip, c) ∈ es ∧ ip ∉ known ∧ c ≤ thr

namespace Cpp

/-- A known address that the difference does not see: a larger one stands before it. -/
def PassedOver (known : List UInt32) (ip : UInt32) : Prop := ip ∈ known ∧ ∃ y ∈ known.takeWhile (· ≠ ip), ip < y

theorem dropWhile_dropWhile {p q : UInt32 → Bool} (h : ∀ a, p a = true → q a = true) (l : List UInt32) :
    (l.dropWhile p).dropWhile q = l.dropWhile q := by
  induction l with
  | nil => rfl
  | cons a l ih =>
    by_cases ha : p a = true
    · rw [List.dropWhile_cons_of_pos ha, List.dropWhile_cons_of_pos (h a ha), ih]
    · rw [List.dropWhile_cons_of_neg ha]

theorem head?_dropWhile_lt (ys : List UInt32) (z : UInt32) :
    (ys.dropWhile (· < z)).head? = some z ↔ z ∈ ys ∧ ¬ PassedOver ys z := by
  have hseen : z ∈ ys ∧ ¬ PassedOver ys z ↔ z ∈ ys ∧ ∀ y ∈ ys.takeWhile (· ≠ z), ¬ z < y := by
    simp only [PassedOver, not_and, not_exists]
    apply and_congr_right
    intro hz
    exact ⟨fun h => h hz, fun h _ => h⟩
  apply Iff.trans _ hseen.symm
  clear hseen
  induction ys with
  | nil => simp
  | cons y ys ih =>
    by_cases hyz : y = z
    · subst hyz
      rw [List.dropWhile_cons_of_neg (by simp), List.takeWhile_cons_of_neg (by simp)]
      simp
    · rw [List.takeWhile_cons_of_pos (by simp [hyz]), List.forall_mem_cons, List.mem_cons,
        or_iff_right (Ne.symm hyz)]
      by_cases hlt : y < z
      · rw [List.dropWhile_cons_of_pos (by simp [hlt]), ih, and_iff_right (UInt32.lt_asymm hlt)]
      · rw [List.dropWhile_cons_of_neg (by simp [hlt])]
        have hgt : z < y := by
          rw [UInt32.lt_iff_toNat_lt] at hlt ⊢
          have : y.toNat ≠ z.toNat := fun h => hyz (UInt32.toNat_inj.mp h)
          omega
        exact iff_of_false (fun h => hyz (Option.some.inj h)) fun h => h.2.1 hgt

/-- The difference keeps what it does not see in the second list, in whatever order that is. -/
theorem mem_setDifference {xs : List UInt32} (hx : xs.Pairwise (·.toNat < ·.toNat)) (ys : List UInt32)
    (z : UInt32) : z ∈ setDifference xs ys ↔ z ∈ xs ∧ (z ∈ ys → PassedOver ys z) := by
  have hmove : ∀ ys : List UInt32, (z ∈ ys → PassedOver ys z) ↔ (ys.dropWhile (· < z)).head? ≠ some z := by
    intro ys
    rw [ne_eq, head?_dropWhile_lt, not_and, not_not]
  apply Iff.trans _ (and_congr_right fun _ => (hmove ys).symm)
  clear hmove
  induction xs generalizing ys with
  | nil => simp [setDifference]
  | cons x xs ih =>
    obtain ⟨hfirst, hxs⟩ := List.pairwise_cons.mp hx
    have hlt : z ∈ xs → x < z := fun hz => UInt32.lt_iff_toNat_lt.mpr (hfirst z hz)
    -- what is dropped for the first element is dropped for a later one
    have hdrop : z ∈ x :: xs → (ys.dropWhile (· < x)).dropWhile (· < z) = ys.dropWhile (· < z) := by
      intro hz
      apply dropWhile_dropWhile
      intro a ha
      rw [decide_eq_true_eq] at ha ⊢
      obtain he | hz := List.mem_cons.mp hz
      · rwa [he]
      · exact UInt32.lt_trans ha (hlt hz)
    have hhead := List.head?_dropWhile_not (· < x) ys
    unfold setDifference
    generalize ys.dropWhile (· < x) = ds at hdrop hhead ⊢
    have hrow : z ∈ x :: xs ∧ (ys.dropWhile (· < z)).head? ≠ some z ↔
        z ∈ x :: xs ∧ (ds.dropWhile (· < z)).head? ≠ some z := and_congr_right fun hz => by rw [hdrop hz]
    rw [hrow]
    clear hrow hdrop
    cases ds with
    | nil =>
      have hrest := ih hxs []
      simp only [List.dropWhile_nil, List.head?_nil, ne_eq, reduceCtorEq, not_false_eq_true, and_true] at hrest ⊢
      rw [List.mem_cons, List.mem_cons, hrest]
    | cons y ds =>
      have hyx : ¬ y < x := by simpa using hhead
      dsimp only
      split
      next hxy =>
        have hrest := ih hxs (y :: ds)
        rw [List.mem_cons, List.mem_cons, hrest, or_and_right]
        apply or_congr_left
        apply Iff.symm
        apply and_iff_left_of_imp
        intro he h
        rw [he, List.dropWhile_cons_of_neg (by simp [hyx])] at h
        rw [Option.some.inj h] at hxy
        exact UInt32.lt_irrefl x hxy
      next hxy =>
        have he : y = x := by
          rw [UInt32.lt_iff_toNat_lt] at hxy hyx
          exact UInt32.toNat_inj.mp (by omega)
        subst he
        have hrest := ih hxs ds
        rw [hrest, List.mem_cons, or_and_right]
        apply Iff.symm
        apply Iff.trans (or_iff_right _)
        · apply and_congr_right
          intro hz
          rw [List.dropWhile_cons_of_pos (by simp [hlt hz])]
        · intro ⟨he, h⟩
          rw [he, List.dropWhile_cons_of_neg (by simp)] at h
          exact h rfl

/-- In a sorted list every address is seen. -/
theorem not_passedOver_of_sorted {ys : List UInt32} (hy : ys.Pairwise (·.toNat ≤ ·.toNat)) (z : UInt32) :
    ¬ PassedOver ys z := by
  intro ⟨hz, y, hbefore, hlt⟩
  have hbeforeNe : z ∉ ys.takeWhile (· ≠ z) := by
    intro h
    have hne := List.mem_takeWhile_imp h
    simp at hne
  rw [← @List.takeWhile_append_dropWhile _ (· ≠ z) ys] at hy hz
  have hafter := (List.mem_append.mp hz).resolve_left hbeforeNe
  have hle := (List.pairwise_append.mp hy).2.2 y hbefore z hafter
  rw [UInt32.lt_iff_toNat_lt] at hlt
  omega

theorem setDifference_sublist (xs ys : List UInt32) : (setDifference xs ys).Sublist xs := by
  induction xs generalizing ys with
  | nil => exact List.Sublist.slnil
  | cons x xs ih =>
    unfold setDifference
    split
    next => exact (ih []).cons_cons x
    next y ys _ =>
      split
      next => exact (ih (y :: ys)).cons_cons x
      next => exact (ih ys).cons x

instance (known : List UInt32) (ip : UInt32) : Decidable (PassedOver known ip) :=
  inferInstanceAs (Decidable (_ ∧ _))

/-- The counts of the entries with the given keys. -/
theorem sum_counts_eq_mass {m : IPCount} {cand : List UInt32} {p : UInt32 × Int → Bool} (hnd : cand.Nodup)
    (hmem : ∀ ip, ip ∈ cand ↔ ∃ c, (ip, c) ∈ pairs m ∧ p (ip, c) = true) :
    (cand.map fun ip => (m.lookup ip).getD 0).sum = mass ((pairs m).filter p) := by
  have hkeys : (((pairs m).filter p).map Prod.fst).Nodup :=
    (pairs_nodup m).sublist (List.filter_sublist.map Prod.fst)
  have hperm : cand.Perm (((pairs m).filter p).map Prod.fst) := by
    apply (List.perm_ext_iff_of_nodup hnd hkeys).mpr
    intro ip
    rw [hmem]
    simp only [List.mem_map, List.mem_filter, Prod.exists, exists_and_right, exists_eq_right]
  have hcounts : ((pairs m).filter p).map ((fun ip => (m.lookup ip).getD 0) ∘ Prod.fst) =
      ((pairs m).filter p).map Prod.snd := by
    apply List.map_congr_left
    intro e he
    rw [Function.comp_apply, mem_pairs.mp (List.mem_filter.mp he).1, Option.getD_some]
  rw [(hperm.map _).sum_eq, List.map_map, hcounts, mass]

namespace SndAttackerIPMergeTask

variable {F : Type} [FloatArith F] (t : SndAttackerIPMergeTask F) (ord : Nat → Order UInt32 Int)
  (known : List UInt32)

/-- What program4 takes for a random source: a rare one that the difference does not see among the
known. -/
def isCandidate (e : UInt32 × Int) : Bool :=
  (e.1 ∈ known → PassedOver known e.1) ∧ e.2 ≤ t.ipRandCountThreshold

def candidates (es : List (UInt32 × Int)) : List (UInt32 × Int) := es.filter (t.isCandidate known)

theorem candidates_perm {es fs : List (UInt32 × Int)} (h : es.Perm fs) :
    (t.candidates known es).Perm (t.candidates known fs) := h.filter _

variable [LE F] [DecidableLE F]

/-- The 32-bit sum of the candidates reaches the share of the total. -/
def Enough (s : Int) (es : List (UInt32 × Int)) : Prop :=
  FloatArith.mul (FloatArith.ofInt s) t.ipRandCountRatio ≤
    FloatArith.ofInt ((mass (t.candidates known es)).bmod (2 ^ 32))

instance (s : Int) (es : List (UInt32 × Int)) : Decidable (t.Enough known s es) :=
  inferInstanceAs (Decidable (_ ≤ _))

theorem program4_spec (s : Int) (m : IPCount) (cidrs : List CIDR) :
    ((t.program4 ord s m known cidrs).containRandomAttack = true ↔ t.Enough known s (pairs m)) ∧
    ∀ ip, ip ∈ (t.program4 ord s m known cidrs).randomIPs ↔
      t.Enough known s (pairs m) ∧ ∃ c, (ip, c) ∈ t.candidates known (pairs m) := by
  have hstrict : (((ord 8).keys m).insertionSort (· ≤ ·)).Pairwise (·.toNat < ·.toNat) := by
    have : Std.Total (α := UInt32) (· ≤ ·) := ⟨UInt32.le_total⟩
    have : IsTrans UInt32 (· ≤ ·) := ⟨fun _ _ _ => UInt32.le_trans⟩
    have hle := List.pairwise_insertionSort (· ≤ ·) ((ord 8).keys m)
    have hnd : (((ord 8).keys m).insertionSort (· ≤ ·)).Nodup :=
      (List.perm_insertionSort _ _).nodup_iff.mpr ((ord 8).keys_nodup m)
    refine (hle.and hnd).imp fun hab => ?_
    have h₁ := UInt32.le_iff_toNat_le.mp hab.1
    exact lt_of_le_of_ne h₁ fun he => hab.2 (UInt32.toNat_inj.mp he)
  obtain ⟨cand, hcand⟩ : ∃ cand, cand = (setDifference (((ord 8).keys m).insertionSort (· ≤ ·)) known).filter
      fun ip => (m.lookup ip).getD 0 ≤ t.ipRandCountThreshold := ⟨_, rfl⟩
  have hnd : cand.Nodup := by
    have hnodup := hstrict.imp fun {a b : UInt32} (h : a.toNat < b.toNat) (he : a = b) =>
      Nat.lt_irrefl _ (he ▸ h)
    rw [hcand]
    exact (hnodup.sublist (setDifference_sublist _ known)).filter _
  have hmem : ∀ ip, ip ∈ cand ↔ ∃ c, (ip, c) ∈ pairs m ∧ t.isCandidate known (ip, c) = true := by
    intro ip
    rw [hcand, List.mem_filter, mem_setDifference hstrict, List.mem_insertionSort, Order.mem_keys, mem_iff_lookup,
      decide_eq_true_eq]
    simp only [isCandidate, decide_eq_true_eq]
    apply Iff.intro
    · intro ⟨⟨⟨c, hc⟩, hout⟩, hle⟩
      rw [hc] at hle
      exact ⟨c, mem_pairs.mpr hc, hout, hle⟩
    · intro ⟨c, hc, hout, hle⟩
      have hlook := mem_pairs.mp hc
      refine ⟨⟨⟨c, hlook⟩, hout⟩, ?_⟩
      rwa [hlook]
  have hsum : sumInts 32 (cand.map fun ip => (m.lookup ip).getD 0) =
      (mass (t.candidates known (pairs m))).bmod (2 ^ 32) := by
    rw [sumInts_eq, sum_counts_eq_mass hnd hmem]
    rfl
  have hset : ∀ ip, ip ∈ cand ↔ ∃ c, (ip, c) ∈ t.candidates known (pairs m) := by
    intro ip
    rw [hmem]
    simp only [candidates, List.mem_filter]
  have hrun : t.program4 ord s m known cidrs = if t.Enough known s (pairs m) then ⟨cidrs, true, cand⟩
      else ⟨cidrs, false, []⟩ := by
    have henough : t.Enough known s (pairs m) ↔ FloatArith.mul (FloatArith.ofInt s) t.ipRandCountRatio ≤
        FloatArith.ofInt (sumInts 32 (cand.map fun ip => (m.lookup ip).getD 0)) := by rw [Enough, hsum]
    rw [if_congr henough rfl rfl, hcand]
    rfl
  rw [hrun]
  split
  next h => exact ⟨iff_of_true rfl h, fun ip => (hset ip).trans (and_iff_right h).symm⟩
  next h => exact ⟨iff_of_false Bool.false_ne_true h, fun ip => iff_of_false (by simp) fun hc => h hc.1⟩

/-- The decision of a run, and the random sources it puts out: none where nothing is left. -/
theorem process_random (m : IPCount) : let rest := (t.plan (total m)).rest16 (pairs m)
    ((t.process ord m known).1.containRandomAttack = true ↔ rest ≠ [] ∧ t.Enough known (total m) rest) ∧
    ∀ ip, ip ∈ (t.process ord m known).1.randomIPs ↔
      (rest ≠ [] ∧ t.Enough known (total m) rest) ∧ ∃ c, (ip, c) ∈ t.candidates known rest := by
  intro rest
  have hrest := (t.process_spec ord m known).2
  have hlen := length_keys_eq_zero_iff hrest
  obtain ⟨hkeys, hflag, hips⟩ | ⟨hkeys, cidrs, hrun⟩ := t.process_residue ord m known
  · have hnil : rest = [] := hlen.mp hkeys
    rw [hflag, hips]
    exact ⟨iff_of_false Bool.false_ne_true fun h => h.1 hnil, fun ip => iff_of_false (by simp) fun h => h.1.1 hnil⟩
  · have hne : rest ≠ [] := hlen.not.mp hkeys
    obtain ⟨hdecision, hips⟩ := t.program4_spec ord known (total m) (t.process ord m known).2 cidrs
    have hperm := t.candidates_perm known hrest
    have henough : t.Enough known (total m) (pairs (t.process ord m known).2) ↔ t.Enough known (total m) rest := by
      rw [Enough, Enough, mass_perm hperm]
    rw [← hrun, henough] at hdecision
    simp only [← hrun, henough, hperm.mem_iff] at hips
    refine ⟨hdecision.trans (and_iff_right hne).symm, fun ip => ?_⟩
    rw [hips, and_iff_right hne]

end SndAttackerIPMergeTask

end Cpp

theorem mem_foldl_insert (ips : List UInt32) (m : GoMap UInt32 Unit) (ip : UInt32) :
    ip ∈ ips.foldl (fun m ip => m.insert ip ()) m ↔ ip ∈ ips ∨ ip ∈ m := by
  induction ips generalizing m with
  | nil => simp
  | cons x ips ih => rw [List.foldl_cons, ih, AList.mem_insert, List.mem_cons]; tauto

/-- What stays in the histogram after the normal addresses are deleted. -/
theorem lookup_ipSuspectRand (ord : Nat → Order UInt32 Int) (nord : Order UInt32 Unit)
    (normalIps : GoMap UInt32 Unit) (m : IPCount) (countThr numThr : Int) (ip : UInt32) (c : Int) :
    (ipSuspectRand ord nord normalIps m countThr numThr).2.lookup ip = some c ↔
      m.lookup ip = some c ∧ ip ∉ normalIps ∧ c ≤ countThr := by
  have hnormal : ip ∈ nord.keys (((((ord 0).run m).filter fun e => countThr < e.2).map Prod.fst).foldl
      (fun m ip => m.insert ip ()) normalIps) ↔ (∃ c, m.lookup ip = some c ∧ countThr < c) ∨ ip ∈ normalIps := by
    rw [Order.mem_keys, mem_foldl_insert]
    simp only [List.mem_map, List.mem_filter, decide_eq_true_eq, Prod.exists, Order.mem_run,
      exists_eq_right, exists_and_right]
  rw [ipSuspectRand]
  simp only [lookup_eraseAll]
  constructor
  · intro hc
    split at hc
    next => cases hc
    next hin =>
      rw [hnormal, not_or] at hin
      exact ⟨hc, hin.2, not_lt.mp fun hlt => hin.1 ⟨c, hc, hlt⟩⟩
  · intro h
    rcases h with ⟨hlook, hout, hle⟩
    rw [if_neg, hlook]
    rw [hnormal, not_or]
    refine ⟨?_, hout⟩
    intro h
    rcases h with ⟨d, hd, hlt⟩
    rw [hlook] at hd
    cases hd
    omega

theorem ipSuspectRand_decision (ord : Nat → Order UInt32 Int) (nord : Order UInt32 Unit)
    (normalIps : GoMap UInt32 Unit) (m : IPCount) (countThr numThr : Int) :
    (ipSuspectRand ord nord normalIps m countThr numThr).1 = true ↔
      numThr ≤ (mass (pairs (ipSuspectRand ord nord normalIps m countThr numThr).2)).bmod (2 ^ 64) := by
  have hmass : ∀ m : IPCount, (((ord 1).run m).map Prod.snd).sum = mass (pairs m) := fun m =>
    mass_perm ((ord 1).perm m)
  rw [ipSuspectRand, decide_eq_true_eq, sumInts_eq, hmass]

namespace SndAttackerIPMergeTask

variable {F : Type} [FloatArith F] (t : SndAttackerIPMergeOptions F) (ord : Nat → Order UInt32 Int)
  (nord : Order UInt32 Unit)

/-- The histogram that the random decision adds up. -/
def residue (m : IPCount) (normalIps : GoMap UInt32 Unit) : Option IPCount :=
  (steps t ord m).map fun r => (ipSuspectRand (fun i => ord (6 + i)) nord normalIps r.df3
    t.ipRandCountThreshold (numThreshold (ipCountSum (ord 0) m) t.ipRandCountRatio)).2

/-- The sources outside every selected group that are neither known nor counted too often, where the
thresholds are shares of the sum `s`. -/
def randomSources (s : F) (m : IPCount) (normalIps : GoMap UInt32 Unit) : List (UInt32 × Int) :=
  ((plan t s).rest16 (pairs m)).filter fun e => e.1 ∉ normalIps ∧ e.2 ≤ t.ipRandCountThreshold

/-- One run of the task, with the sum `s`: the residue holds the random sources, and a decision for
random hands on nothing of it. -/
structure Outcome (s : F) (m : IPCount) (normalIps : GoMap UInt32 Unit) (steps : SuspectSteps)
    (r : AttackerIPMergeResult) (df : IPCount) : Prop where
  follows : Follows m (plan t s) steps
  nets : r.attackerIPNets = steps.nets32 ++ steps.nets24 ++ steps.nets16
  residue : (pairs df).Perm (randomSources t s m normalIps)
  decision : r.isRand = true ↔
    numThreshold s t.ipRandCountRatio ≤ (mass (randomSources t s m normalIps)).bmod (2 ^ 64)
  handed : r.randIPCountDF = if r.isRand then ∅ else df

theorem process_outcome (m : IPCount) (normalIps : GoMap UInt32 Unit) :
    ∃ s r df, steps t ord m = some s ∧ process t ord nord m normalIps = some r ∧
      residue t ord nord m normalIps = some df ∧ Outcome t (ipCountSum (ord 0) m) m normalIps s r df := by
  obtain ⟨s, hs, hf⟩ := steps_spec t ord m
  have hdf : (pairs (ipSuspectRand (fun i => ord (6 + i)) nord normalIps s.df3 t.ipRandCountThreshold
      (numThreshold (ipCountSum (ord 0) m) t.ipRandCountRatio)).2).Perm
        (randomSources t (ipCountSum (ord 0) m) m normalIps) := by
    refine (pairs_perm_filter fun ip c => ?_).trans (hf.df3.filter _)
    rw [lookup_ipSuspectRand, decide_eq_true_eq]
  refine ⟨s, _, _, hs, by rw [process, hs, Option.map_some], by rw [residue, hs, Option.map_some],
    hf, rfl, hdf, ?_, rfl⟩
  dsimp only
  rw [ipSuspectRand_decision, mass_perm hdf]

end SndAttackerIPMergeTask

end Dni
