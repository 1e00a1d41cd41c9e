import Dni.Lib.Bisect
import Mathlib.Tactic.IntervalCases

namespace Dni.Cpp

open Dyadic

structure CIDR where
  ip : UInt32
  len : Nat
deriving DecidableEq

/-- Set a bit to a given value (0 or 1); MSB is bit 1, LSB is bit 32. A shift count below zero wraps. -/
def setBit (ip : UInt32) (bitno val : Nat) : UInt32 :=
  if val ≠ 0 then ip ||| 1 <<< UInt32.ofInt (32 - bitno)
  else ip &&& ~~~(1 <<< UInt32.ofInt (32 - bitno))

/-- Compute netmask address given length. -/
def netmask (len : Nat) : UInt32 :=
  if len = 0 then ~~~(0 - 1) else ~~~(1 <<< UInt32.ofNat (32 - len) - 1)

/-- Compute broadcast address given address and len. -/
def broadcast (ip : UInt32) (len : Nat) : UInt32 := ip ||| ~~~netmask len

/-- Compute network address given address and len. -/
def network (ip : UInt32) (len : Nat) : UInt32 := ip &&& netmask len

/-- Recursively compute network addresses to cover range lo-hi; `none` is the error return. The
length grows at every call, so a budget of 34 lasts until it is refused. -/
def splitRange : Nat → UInt32 → Nat → UInt32 → UInt32 → Option (List CIDR)
  | 0, _, _, _, _ => none
  | fuel + 1, ip, len, lo, hi =>
    if 32 < len then none
    else
      let bc := broadcast ip len
      if lo < ip ∨ bc < hi then none
      else if lo = ip ∧ hi = bc then some [⟨ip, len⟩]
      else
        let lowerHalf := ip
        let upperHalf := setBit ip (len + 1) 1
        if hi < upperHalf then splitRange fuel lowerHalf (len + 1) lo hi
        else if upperHalf ≤ lo then splitRange fuel upperHalf (len + 1) lo hi
        else
          (splitRange fuel lowerHalf (len + 1) lo (broadcast lowerHalf (len + 1))).bind fun low =>
            (splitRange fuel upperHalf (len + 1) upperHalf hi).map (low ++ ·)

def iprangeToCidrs (fr upTo : CIDR) : List CIDR :=
  if 32 < fr.len ∨ 32 < upTo.len then []
  else (splitRange 34 0 0 (network fr.ip fr.len) (broadcast upTo.ip upTo.len)).getD []

def CIDR.Covers (c : CIDR) (a : UInt32) : Prop := network a c.len = network c.ip c.len

instance (c : CIDR) (a : UInt32) : Decidable (c.Covers a) := inferInstanceAs (Decidable (_ = _))

theorem toNat_netmask {len : Nat} (h : len ≤ 32) :
    (netmask len).toNat = (2 ^ (32 - (32 - len)) - 1) * 2 ^ (32 - len) := by
  interval_cases len <;> rfl

theorem toNat_network (ip : UInt32) {len : Nat} (h : len ≤ 32) :
    (network ip len).toNat = ip.toNat / 2 ^ (32 - len) * 2 ^ (32 - len) := by
  rw [network, UInt32.toNat_and, toNat_netmask h]
  exact and_mask_eq (by omega) (UInt32.toNat_lt ip)

theorem toNat_hostmask {len : Nat} (h : len ≤ 32) :
    (~~~netmask len).toNat = 2 ^ (32 - len) - 1 := by
  interval_cases len <;> rfl

theorem toNat_broadcast {ip : UInt32} {len : Nat} (h : len ≤ 32)
    (ha : 2 ^ (32 - len) ∣ ip.toNat) : (broadcast ip len).toNat = ip.toNat + (2 ^ (32 - len) - 1) := by
  obtain ⟨m, hm⟩ := ha
  have hp := Nat.two_pow_pos (32 - len)
  rw [broadcast, UInt32.toNat_or, toNat_hostmask h, hm,
    Nat.two_pow_add_eq_or_of_lt (Nat.sub_lt hp Nat.one_pos)]

theorem toNat_setBit {ip : UInt32} {len : Nat} (h : len < 32)
    (ha : 2 ^ (32 - len) ∣ ip.toNat) :
    (setBit ip (len + 1) 1).toNat = ip.toNat + 2 ^ (32 - (len + 1)) := by
  obtain ⟨m, hm⟩ := ha
  have hbit : (1 <<< UInt32.ofInt (32 - (len + 1 : Nat)) : UInt32).toNat = 2 ^ (32 - (len + 1)) := by
    interval_cases len <;> rfl
  have hlt : 2 ^ (32 - (len + 1)) < 2 ^ (32 - len) := Nat.pow_lt_pow_right (by omega) (by omega)
  rw [setBit, if_pos Nat.one_ne_zero, UInt32.toNat_or, hbit, hm, Nat.two_pow_add_eq_or_of_lt hlt]

theorem CIDR.covers_iff {c : CIDR} (h : c.len ≤ 32) (ha : 2 ^ (32 - c.len) ∣ c.ip.toNat) (a : UInt32) :
    c.Covers a ↔ c.ip ≤ a ∧ a ≤ broadcast c.ip c.len := by
  have hp := Nat.two_pow_pos (32 - c.len)
  rw [Covers, ← UInt32.toNat_inj, toNat_network _ h, toNat_network _ h, Nat.mul_left_inj hp.ne',
    UInt32.le_iff_toNat_le, UInt32.le_iff_toNat_le, toNat_broadcast h ha]
  have hb := mem_iff_div (b := ⟨c.ip.toNat, 32 - c.len, ha⟩) (x := a.toNat)
  rw [mem_def] at hb
  rw [← hb]
  simp only
  omega

/-- The arguments of one call of split_range. -/
structure SplitCall where
  ip : UInt32
  len : Nat
  lo : UInt32
  hi : UInt32

namespace SplitCall

/-- What the call returns with this budget. -/
def result (fuel : Nat) (c : SplitCall) : Option (List CIDR) := splitRange fuel c.ip c.len c.lo c.hi

/-- The branch of the call that is refused as out of range. -/
def OutOfRange (c : SplitCall) : Prop := c.lo < c.ip ∨ broadcast c.ip c.len < c.hi

instance (c : SplitCall) : Decidable c.OutOfRange := inferInstanceAs (Decidable (_ ∨ _))

/-- The calls that a call makes itself. -/
def calls (c : SplitCall) : List SplitCall :=
  if 32 < c.len ∨ c.OutOfRange then []
  else if c.lo = c.ip ∧ c.hi = broadcast c.ip c.len then []
  else
    let upperHalf := setBit c.ip (c.len + 1) 1
    if c.hi < upperHalf then [⟨c.ip, c.len + 1, c.lo, c.hi⟩]
    else if upperHalf ≤ c.lo then [⟨upperHalf, c.len + 1, c.lo, c.hi⟩]
    else [⟨c.ip, c.len + 1, c.lo, broadcast c.ip (c.len + 1)⟩, ⟨upperHalf, c.len + 1, upperHalf, c.hi⟩]

theorem result_succ (fuel : Nat) (c : SplitCall) : c.result (fuel + 1) =
    if 32 < c.len ∨ c.OutOfRange then none
    else if c.lo = c.ip ∧ c.hi = broadcast c.ip c.len then some [⟨c.ip, c.len⟩]
    else (c.calls.mapM (result fuel)).map List.flatten := by
  rw [result, splitRange, calls]
  by_cases hlen : 32 < c.len
  · rw [if_pos hlen, if_pos (Or.inl hlen)]
  · by_cases hout : c.OutOfRange
    · rw [if_neg hlen, if_pos (Or.inr hout)]
      exact if_pos hout
    · rw [if_neg hlen, if_neg (not_or.mpr ⟨hlen, hout⟩), if_neg (not_or.mpr ⟨hlen, hout⟩)]
      refine (if_neg hout).trans ?_
      split
      next => rfl
      next =>
        dsimp only
        split
        next => simp [result]
        next =>
          split
          next => simp [result]
          next =>
            simp only [List.mapM_cons, List.mapM_nil, result]
            cases splitRange fuel c.ip (c.len + 1) c.lo (broadcast c.ip (c.len + 1)) with
            | none => rfl
            | some low =>
              cases splitRange fuel (setBit c.ip (c.len + 1) 1) (c.len + 1) (setBit c.ip (c.len + 1) 1) c.hi with
              | none => rfl
              | some high => simp

/-- A call on a range inside an aligned block. -/
structure InBlock (c : SplitCall) : Prop where
  len : c.len ≤ 32
  aligned : 2 ^ (32 - c.len) ∣ c.ip.toNat
  start : c.ip ≤ c.lo
  order : c.lo ≤ c.hi
  stop : c.hi ≤ broadcast c.ip c.len

theorem InBlock.allowed {c : SplitCall} (h : c.InBlock) : ¬ (32 < c.len ∨ c.OutOfRange) := by
  obtain ⟨hlen, _, hstart, _, hstop⟩ := h
  rw [UInt32.le_iff_toNat_le] at hstart hstop
  rw [OutOfRange, UInt32.lt_iff_toNat_lt, UInt32.lt_iff_toNat_lt]
  omega

/-- The whole range of the call is the block. -/
def Whole (c : SplitCall) : Prop := c.lo = c.ip ∧ c.hi = broadcast c.ip c.len

/-- The halves of a block that the range does not fill. -/
structure Halves (c : SplitCall) (up : UInt32) : Prop where
  len : c.len + 1 ≤ 32
  middle : up.toNat = c.ip.toNat + 2 ^ (32 - (c.len + 1))
  low : 2 ^ (32 - (c.len + 1)) ∣ c.ip.toNat
  high : 2 ^ (32 - (c.len + 1)) ∣ up.toNat
  lowEnd : (broadcast c.ip (c.len + 1)).toNat + 1 = up.toNat
  highEnd : broadcast up (c.len + 1) = broadcast c.ip c.len

theorem InBlock.halves {c : SplitCall} (h : c.InBlock) (hpart : ¬ c.Whole) :
    c.Halves (setBit c.ip (c.len + 1) 1) := by
  obtain ⟨hlen, ha, hstart, horder, hstop⟩ := h
  simp only [UInt32.le_iff_toNat_le] at hstart horder hstop
  have hbc := toNat_broadcast hlen ha
  have hlt : c.len + 1 ≤ 32 := by
    by_contra hc
    have h32 : c.len = 32 := by omega
    rw [h32] at hbc
    apply hpart
    rw [h32] at hstop
    refine ⟨UInt32.toNat_inj.mp (by omega), ?_⟩
    rw [h32]
    exact UInt32.toNat_inj.mp (by omega)
  have hup := toNat_setBit hlt ha
  have hhalf : 2 ^ (32 - c.len) = 2 ^ (32 - (c.len + 1)) + 2 ^ (32 - (c.len + 1)) := by
    rw [show 32 - c.len = 32 - (c.len + 1) + 1 by omega, pow_succ]
    omega
  have hp := Nat.two_pow_pos (32 - (c.len + 1))
  have hlow : 2 ^ (32 - (c.len + 1)) ∣ c.ip.toNat := (pow_dvd_pow 2 (by omega)).trans ha
  have hhigh : 2 ^ (32 - (c.len + 1)) ∣ (setBit c.ip (c.len + 1) 1).toNat := hup ▸ Nat.dvd_add hlow dvd_rfl
  have hlb := toNat_broadcast hlt hlow
  have hub := toNat_broadcast hlt hhigh
  exact ⟨hlt, hup, hlow, hhigh, by omega, UInt32.toNat_inj.mp (by omega)⟩

/-- What a call on a range inside its block does. -/
inductive Splits (c : SplitCall) : Prop
  | whole (h : c.Whole)
  | lower (up : UInt32) (hup : c.Halves up) (hpart : ¬ c.Whole) (hhi : c.hi < up)
    (hcalls : c.calls = [⟨c.ip, c.len + 1, c.lo, c.hi⟩])
  | upper (up : UInt32) (hup : c.Halves up) (hpart : ¬ c.Whole) (hlo : up ≤ c.lo)
    (hcalls : c.calls = [⟨up, c.len + 1, c.lo, c.hi⟩])
  | both (up : UInt32) (hup : c.Halves up) (hpart : ¬ c.Whole) (hlo : c.lo < up) (hhi : up ≤ c.hi)
    (hcalls : c.calls = [⟨c.ip, c.len + 1, c.lo, broadcast c.ip (c.len + 1)⟩, ⟨up, c.len + 1, up, c.hi⟩])

theorem InBlock.splits {c : SplitCall} (h : c.InBlock) : c.Splits := by
  by_cases hwhole : c.Whole
  · exact .whole hwhole
  · have hup := h.halves hwhole
    have hcalls : c.calls = _ := (if_neg h.allowed).trans (if_neg hwhole)
    dsimp only at hcalls
    by_cases hhi : c.hi < setBit c.ip (c.len + 1) 1
    · exact .lower _ hup hwhole hhi (hcalls.trans (if_pos hhi))
    · rw [if_neg hhi] at hcalls
      by_cases hlo : setBit c.ip (c.len + 1) 1 ≤ c.lo
      · exact .upper _ hup hwhole hlo (hcalls.trans (if_pos hlo))
      · exact .both _ hup hwhole (UInt32.not_le.mp hlo) (UInt32.not_lt.mp hhi) (hcalls.trans (if_neg hlo))

/-- Every call is one level deeper, on a range inside its own block. -/
theorem InBlock.call {c d : SplitCall} (h : c.InBlock) (hd : d ∈ c.calls) : d.InBlock ∧ d.len = c.len + 1 := by
  have hb := h.allowed
  have hsplits := h.splits
  obtain ⟨_, _, hstart, horder, hstop⟩ := h
  cases hsplits with
  | whole hwhole =>
    have hnil : c.calls = [] := (if_neg hb).trans (if_pos hwhole)
    rw [hnil] at hd
    cases hd
  | lower up hup hpart hhi hcalls =>
    obtain ⟨hlen, hupv, hlow, hhigh, hlowEnd, hhighEnd⟩ := hup
    rw [hcalls, List.mem_singleton] at hd
    subst hd
    refine ⟨⟨hlen, hlow, hstart, horder, ?_⟩, rfl⟩
    rw [UInt32.le_iff_toNat_le]
    rw [UInt32.lt_iff_toNat_lt] at hhi
    dsimp only
    omega
  | upper up hup hpart hlo hcalls =>
    rw [hcalls, List.mem_singleton] at hd
    subst hd
    exact ⟨⟨hup.len, hup.high, hlo, horder, hup.highEnd ▸ hstop⟩, rfl⟩
  | both up hup hpart hlo hhi hcalls =>
    obtain ⟨hlen, hupv, hlow, hhigh, hlowEnd, hhighEnd⟩ := hup
    rw [hcalls, List.mem_cons, List.mem_singleton] at hd
    obtain hd | hd := hd
    · subst hd
      refine ⟨⟨hlen, hlow, hstart, ?_, UInt32.le_refl _⟩, rfl⟩
      rw [UInt32.le_iff_toNat_le]
      rw [UInt32.lt_iff_toNat_lt] at hlo
      dsimp only
      omega
    · subst hd
      exact ⟨⟨hlen, hhigh, UInt32.le_refl _, hhi, hhighEnd ▸ hstop⟩, rfl⟩

end SplitCall

/-- The network written for a block. -/
structure CIDR.IsBlock (c : CIDR) (b : Dyadic.Block) : Prop where
  len : c.len ≤ 32
  base : b.base = c.ip.toNat
  k : b.k = 32 - c.len

theorem CIDR.IsBlock.covers_iff {c : CIDR} {b : Dyadic.Block} (h : c.IsBlock b) (a : UInt32) :
    c.Covers a ↔ a.toNat ∈ b := by
  obtain ⟨hlen, hbase, hk⟩ := h
  have hp := Nat.two_pow_pos (32 - c.len)
  rw [Covers, ← UInt32.toNat_inj, toNat_network _ hlen, toNat_network _ hlen, Nat.mul_left_inj hp.ne',
    mem_iff_div, hbase, hk]

/-- Within the budget a call returns the networks of the halving of its block. -/
theorem SplitCall.InBlock.cut {c : SplitCall} (h : c.InBlock) {fuel : Nat} (hfuel : 33 ≤ fuel + c.len) :
    ∃ cs bs, c.result fuel = some cs ∧ Cut (32 - c.len) c.ip.toNat c.lo.toNat c.hi.toNat bs ∧
      List.Forall₂ CIDR.IsBlock cs bs := by
  induction fuel generalizing c with
  | zero =>
    have := h.len
    omega
  | succ fuel ih =>
    have hb := h.allowed
    rw [result_succ, if_neg hb]
    have hcall : ∀ d ∈ c.calls, ∃ cs bs, d.result fuel = some cs ∧
        Cut (32 - (c.len + 1)) d.ip.toNat d.lo.toNat d.hi.toNat bs ∧ List.Forall₂ CIDR.IsBlock cs bs := by
      intro d hd
      obtain ⟨hin, hlen⟩ := h.call hd
      rw [← hlen]
      exact ih hin (by omega)
    have hk : ∀ up, c.Halves up → 32 - c.len = 32 - (c.len + 1) + 1 := by
      intro up hup
      have := hup.len
      omega
    cases h.splits with
    | whole hwhole =>
      have hbc := toNat_broadcast h.len h.aligned
      have hp := Nat.two_pow_pos (32 - c.len)
      refine ⟨[⟨c.ip, c.len⟩], _, if_pos hwhole, .whole h.aligned (by rw [hwhole.1]) ?_, .cons ⟨h.len, rfl, rfl⟩ .nil⟩
      rw [hwhole.2]
      omega
    | lower up hup hpart hhi hcalls =>
      obtain ⟨cs, bs, hcs, hcut, hbs⟩ := hcall _ (by rw [hcalls]; exact List.mem_singleton_self _)
      rw [UInt32.lt_iff_toNat_lt, hup.middle] at hhi
      refine ⟨cs, bs, (if_neg hpart).trans ?_, hk up hup ▸ .lower hhi hcut, hbs⟩
      rw [hcalls, List.mapM_cons, hcs]
      simp
    | upper up hup hpart hlo hcalls =>
      obtain ⟨cs, bs, hcs, hcut, hbs⟩ := hcall _ (by rw [hcalls]; exact List.mem_singleton_self _)
      rw [UInt32.le_iff_toNat_le, hup.middle] at hlo
      rw [hup.middle] at hcut
      refine ⟨cs, bs, (if_neg hpart).trans ?_, hk up hup ▸ .upper hlo hcut, hbs⟩
      rw [hcalls, List.mapM_cons, hcs]
      simp
    | both up hup hpart hlo hhi hcalls =>
      obtain ⟨low, bs, hlow, hcutLow, hbs⟩ := hcall _ (by rw [hcalls]; exact List.mem_cons_self)
      obtain ⟨high, ds, hhigh, hcutHigh, hds⟩ := hcall ⟨up, c.len + 1, up, c.hi⟩ (by rw [hcalls]; simp)
      have hmid := hup.lowEnd
      rw [hup.middle] at hmid hcutHigh
      have hbc := toNat_broadcast h.len h.aligned
      have hp := Nat.two_pow_pos (32 - c.len)
      have hnot : ¬ (c.lo.toNat = c.ip.toNat ∧ c.hi.toNat + 1 = c.ip.toNat + 2 ^ (32 - (c.len + 1) + 1)) := by
        intro ⟨hlo', hhi'⟩
        rw [← hk up hup] at hhi'
        exact hpart ⟨UInt32.toNat_inj.mp hlo', UInt32.toNat_inj.mp (by omega)⟩
      refine ⟨low ++ high, bs ++ ds, (if_neg hpart).trans ?_, hk up hup ▸ .both hmid hnot hcutLow hcutHigh,
        List.rel_append hbs hds⟩
      rw [hcalls, List.mapM_cons, hlow, List.mapM_cons, hhigh]
      simp

/-- The first call is on the block of all addresses. -/
theorem whole_inBlock {lo hi : UInt32} (h : lo ≤ hi) : SplitCall.InBlock ⟨0, 0, lo, hi⟩ := by
  have htop : hi ≤ broadcast 0 0 := by
    have hlt := UInt32.toNat_lt hi
    rw [UInt32.le_iff_toNat_le, show (broadcast 0 0).toNat = 2 ^ 32 - 1 by rfl]
    omega
  exact ⟨Nat.zero_le _, dvd_zero _, UInt32.le_iff_toNat_le.mpr (Nat.zero_le _), h, htop⟩

theorem iprangeToCidrs_cut {fr upTo : CIDR} (hf : fr.len ≤ 32) (ht : upTo.len ≤ 32)
    (hle : network fr.ip fr.len ≤ broadcast upTo.ip upTo.len) :
    ∃ bs, Cut 32 0 (network fr.ip fr.len).toNat (broadcast upTo.ip upTo.len).toNat bs ∧
      List.Forall₂ CIDR.IsBlock (iprangeToCidrs fr upTo) bs := by
  obtain ⟨cs, bs, hcs, hcut, hbs⟩ := (whole_inBlock hle).cut (Nat.le_succ 33)
  have hresult : iprangeToCidrs fr upTo = cs := by
    rw [iprangeToCidrs, if_neg (by omega)]
    exact congrArg (Option.getD · []) hcs
  exact ⟨bs, hcut, hresult ▸ hbs⟩

theorem forall₂_covers {cs : List CIDR} {bs : List Dyadic.Block} (h : List.Forall₂ CIDR.IsBlock cs bs) (a : UInt32) :
    (∃ c ∈ cs, c.Covers a) ↔ ∃ b ∈ bs, a.toNat ∈ b := by
  induction h with
  | nil => simp
  | cons hb hrest ih => simp only [List.exists_mem_cons_iff, hb.covers_iff, ih]

theorem iprangeToCidrs_covers {fr upTo : CIDR} (hf : fr.len ≤ 32) (ht : upTo.len ≤ 32)
    (hle : network fr.ip fr.len ≤ broadcast upTo.ip upTo.len) (a : UInt32) :
    (∃ c ∈ iprangeToCidrs fr upTo, c.Covers a) ↔
      network fr.ip fr.len ≤ a ∧ a ≤ broadcast upTo.ip upTo.len := by
  obtain ⟨bs, hcut, hbs⟩ := iprangeToCidrs_cut hf ht hle
  rw [forall₂_covers hbs, (hcut.greedy (dvd_zero _)).cover, UInt32.le_iff_toNat_le, UInt32.le_iff_toNat_le]

end Dni.Cpp
