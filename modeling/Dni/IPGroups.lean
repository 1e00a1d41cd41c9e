import Dni.Lib.Dyadic
import Dni.Lib.GoMap
import Dni.Lib.Sieve

namespace Dni

open GoMap Sieve Dyadic

/-- A histogram: each source address with its count. -/
abbrev IPCount := GoMap UInt32 Int

/-- Addition of signed integers of `w` bits; it wraps around. -/
def addInt (w : Nat) (c x : Int) : Int := (c + x).bmod (2 ^ w)

def sumInts (w : Nat) (xs : List Int) : Int := xs.foldl (addInt w) 0

/-- The counts of the groups of addresses that agree under a mask, in integers of `w` bits. -/
def groupCounts (w : Nat) (mask : UInt32) (es : List (UInt32 × Int)) : IPCount :=
  accumulate (fun e => e.1 &&& mask) 0 (fun c e => addInt w c e.2) es ∅

/-- A value of each address of each group, in the order in which they were met. -/
def groupValues (mask : UInt32) (value : UInt32 → UInt32) (es : List (UInt32 × Int)) :
    GoMap UInt32 (List UInt32) :=
  accumulate (fun e => e.1 &&& mask) [] (fun v e => v ++ [value e.1]) es ∅

def groupMembers (mask : UInt32) (es : List (UInt32 × Int)) : GoMap UInt32 (List UInt32) :=
  groupValues mask (fun ip => ip) es

/-- The groups of a mask as a level of a sieve. -/
def maskTier (mask : UInt32) (hot : Nat → Int → Bool) : Tier UInt32 UInt32 := ⟨(· &&& mask), hot⟩

theorem foldl_addInt (w : Nat) (xs : List Int) {c : Int} (hc : c.bmod (2 ^ w) = c) :
    xs.foldl (addInt w) c = (c + xs.sum).bmod (2 ^ w) := by
  induction xs generalizing c with
  | nil => simpa using hc.symm
  | cons x xs ih =>
    have hstep : (addInt w c x).bmod (2 ^ w) = addInt w c x := Int.bmod_bmod
    rw [List.foldl_cons, ih hstep, addInt, Int.bmod_add_bmod, List.sum_cons, Int.add_assoc]

theorem sumInts_eq (w : Nat) (xs : List Int) : sumInts w xs = xs.sum.bmod (2 ^ w) := by
  rw [sumInts, foldl_addInt w xs Int.zero_bmod, Int.zero_add]

theorem foldl_append_eq_map (value : UInt32 → UInt32) (es : List (UInt32 × Int)) (v : List UInt32) :
    es.foldl (fun v e => v ++ [value e.1]) v = v ++ es.map fun e => value e.1 := by
  induction es generalizing v with
  | nil => simp
  | cons e es ih => rw [List.foldl_cons, ih]; simp

section Groups

variable (mask : UInt32) (hot : Nat → Int → Bool) (es : List (UInt32 × Int)) (g : UInt32)

theorem lookup_groupCounts (w : Nat) : (groupCounts w mask es).lookup g =
    if ∃ e ∈ es, e.1 &&& mask = g then some ((mass ((maskTier mask hot).group es g)).bmod (2 ^ w)) else none := by
  have hsum := sumInts_eq w ((es.filter fun e => e.1 &&& mask = g).map Prod.snd)
  rw [sumInts, List.foldl_map] at hsum
  rw [groupCounts, lookup_accumulate]
  simp only [AList.lookup_empty, Option.getD_none]
  exact if_congr Iff.rfl (congrArg some hsum) rfl

theorem lookup_groupValues (value : UInt32 → UInt32) : (groupValues mask value es).lookup g =
    if ∃ e ∈ es, e.1 &&& mask = g then
      some (((maskTier mask hot).group es g).map fun e => value e.1)
    else none := by
  rw [groupValues, lookup_accumulate, foldl_append_eq_map]
  simp only [AList.lookup_empty, Option.getD_none, List.nil_append]
  rfl

theorem lookup_groupMembers : (groupMembers mask es).lookup g =
    if ∃ e ∈ es, e.1 &&& mask = g then some (((maskTier mask hot).group es g).map Prod.fst)
    else none := lookup_groupValues mask hot es g fun ip => ip

theorem length_groupCounts (w : Nat) : (groupCounts w mask es).keys.length = (maskTier mask hot).groups es :=
  length_accumulate _ _ _ _

end Groups

/-- What stays in the histogram when the members of the hot groups are deleted. -/
theorem lookup_erase_hot {m : IPCount} {mask : UInt32} {hot : Nat → Int → Bool} (o : Order UInt32 Int)
    {sel : List UInt32}
    (hsel : ∀ g, g ∈ sel ↔ (∃ e ∈ o.run m, e.1 &&& mask = g) ∧ (maskTier mask hot).Hot (o.run m) g)
    (ip : UInt32) (c : Int) :
    (eraseAll (sel.flatMap fun g => ((groupMembers mask (o.run m)).lookup g).getD []) m).lookup ip =
      some c ↔ m.lookup ip = some c ∧ ¬ (maskTier mask hot).Hot (pairs m) (ip &&& mask) := by
  rw [lookup_eraseAll, ← Tier.hot_perm (o.perm m)]
  have hmem : (ip ∈ sel.flatMap fun g => ((groupMembers mask (o.run m)).lookup g).getD []) ↔
      ip ∈ m ∧ (maskTier mask hot).Hot (o.run m) (ip &&& mask) := by
    rw [List.mem_flatMap]
    constructor
    · intro h
      rcases h with ⟨g, hg, hip⟩
      obtain ⟨hex, hhot⟩ := (hsel g).mp hg
      rw [lookup_groupMembers mask hot, if_pos hex, Option.getD_some, List.mem_map] at hip
      obtain ⟨e, he, rfl⟩ := hip
      obtain ⟨hem, hek⟩ := Tier.mem_group.mp he
      have hk : e.1 &&& mask = g := hek
      subst hk
      exact ⟨mem_iff_lookup.mpr ⟨e.2, o.mem_run.mp hem⟩, hhot⟩
    · intro h
      rcases h with ⟨hip, hhot⟩
      obtain ⟨v, hv⟩ := mem_iff_lookup.mp hip
      have hrun := o.mem_run.mpr hv
      have hex : ∃ e ∈ o.run m, e.1 &&& mask = ip &&& mask := ⟨_, hrun, rfl⟩
      refine ⟨ip &&& mask, (hsel _).mpr ⟨hex, hhot⟩, ?_⟩
      rw [lookup_groupMembers mask hot, if_pos hex, Option.getD_some]
      exact List.mem_map.mpr ⟨_, Tier.mem_group.mpr ⟨hrun, rfl⟩, rfl⟩
  by_cases hin : ip ∈ m
  · by_cases hhot : (maskTier mask hot).Hot (o.run m) (ip &&& mask)
    · rw [if_pos (hmem.mpr ⟨hin, hhot⟩)]
      simp [hhot]
    · rw [if_neg fun h => hhot (hmem.mp h).2]
      simp [hhot]
  · rw [if_neg fun h => hin (hmem.mp h).1]
    have hnone : ¬ m.lookup ip = some c := fun h => hin (mem_iff_lookup.mpr ⟨c, h⟩)
    simp [hnone]

theorem pairs_erase_hot {m : IPCount} {mask : UInt32} {hot : Nat → Int → Bool} (o : Order UInt32 Int)
    {sel : List UInt32}
    (hsel : ∀ g, g ∈ sel ↔ (∃ e ∈ o.run m, e.1 &&& mask = g) ∧ (maskTier mask hot).Hot (o.run m) g) :
    (pairs (eraseAll (sel.flatMap fun g => ((groupMembers mask (o.run m)).lookup g).getD []) m)).Perm
      ((maskTier mask hot).rest (pairs m)) :=
  pairs_perm_filter fun ip c => by
    rw [lookup_erase_hot o hsel, decide_eq_true_eq]
    rfl

theorem toNat_and_high (x : UInt32) : (x &&& 0xFFFFFF00).toNat = x.toNat / 256 * 256 := by
  rw [UInt32.toNat_and]
  exact and_mask_eq (show 8 ≤ 32 by omega) (UInt32.toNat_lt x)

theorem toNat_and_top (x : UInt32) : (x &&& 0xFFFF0000).toNat = x.toNat / 65536 * 65536 := by
  rw [UInt32.toNat_and]
  exact and_mask_eq (show 16 ≤ 32 by omega) (UInt32.toNat_lt x)

theorem toNat_third (x : UInt32) : (x &&& 0xFF00).toNat = x.toNat / 256 * 256 % 65536 := by
  have h : x &&& 0xFF00 = x &&& 0xFFFFFF00 &&& 0xFFFF := by
    rw [UInt32.and_assoc]
    rfl
  rw [h, UInt32.toNat_and, toNat_and_high, show (0xFFFF : UInt32).toNat = 2 ^ 16 - 1 by rfl,
    Nat.and_two_pow_sub_one_eq_mod]

theorem and_high_idem (x : UInt32) : x &&& 0xFFFFFF00 &&& 0xFFFFFF00 = x &&& 0xFFFFFF00 := by
  rw [UInt32.and_assoc]
  rfl

theorem and_top_idem (x : UInt32) : x &&& 0xFFFF0000 &&& 0xFFFF0000 = x &&& 0xFFFF0000 := by
  rw [UInt32.and_assoc]
  rfl

theorem and_top_of_and_high (x : UInt32) : x &&& 0xFFFFFF00 &&& 0xFFFF0000 = x &&& 0xFFFF0000 := by
  rw [UInt32.and_assoc]
  rfl

end Dni
