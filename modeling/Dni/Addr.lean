import Dni.Lib.Bytes
import Dni.Lib.Dyadic
import Mathlib.Data.Nat.Log
import Mathlib.Tactic.IntervalCases

namespace Dni

/-- `net.IP`: an address as its bytes, 4 or 16 of them. -/
abbrev IP := List UInt8

/-- `net.IPNet`: a network address and its mask. -/
structure NetIPNet where
  ip : IP
  mask : IP
deriving DecidableEq

/-- Uiton converts a uint32 to IPv4 bytes. -/
def uiton (i : UInt32) : IP := [(i >>> 24).toUInt8, (i >>> 16).toUInt8, (i >>> 8).toUInt8, i.toUInt8]

/-- Ntoui converts IPv4 bytes to uint32; it indexes four bytes, so a shorter slice panics. -/
def ntoui : IP → Option UInt32
  | b0 :: b1 :: b2 :: b3 :: _ =>
    some (b3.toUInt32 ||| b2.toUInt32 <<< 8 ||| b1.toUInt32 <<< 16 ||| b0.toUInt32 <<< 24)
  | _ => none

def lessThan (a b : IP) : Bool :=
  if a.length ≠ b.length then a.length < b.length else Bytes.compare a b < 0

def allFF (ip : IP) : Bool := ip.all (· == 0xff)

/-- `bits.LeadingZeros8`. -/
def leadingZeros8 (c : UInt8) : Nat := if c = 0 then 8 else 7 - Nat.log2 c.toNat

/-- `bits.TrailingZeros8`. -/
def trailingZeros8 (c : UInt8) : Nat := ((List.range 8).find? fun i => c.toNat.testBit i).getD 8

def prefixLengthFrom (index : Nat) : IP → Nat
  | [] => 0
  | c :: cs => if c ≠ 0 then index * 8 + leadingZeros8 c + 1 else prefixLengthFrom (index + 1) cs

/-- One-based position of the highest set bit; zero for the all-zero address. -/
def prefixLength (ip : IP) : Nat := prefixLengthFrom 0 ip

/-- The loop runs from the last byte; `n` counts the zero bytes passed. -/
def trailingZerosFrom (n : Nat) : IP → Nat
  | [] => n * 8
  | c :: cs => if c ≠ 0 then n * 8 + trailingZeros8 c else trailingZerosFrom (n + 1) cs

def trailingZeros (ip : IP) : Nat := trailingZerosFrom 0 ip.reverse

def addOne (ip : IP) : IP := (Bytes.incr ip.reverse).reverse

/-- Bytewise exclusive or of two addresses of one family. -/
def xor (a b : IP) : IP := List.zipWith (· ^^^ ·) a b

def cidrMaskBytes : Nat → Nat → IP
  | 0, _ => []
  | l + 1, n =>
    if 8 ≤ n then 0xff :: cidrMaskBytes l (n - 8)
    else (~~~((0xff : UInt8) >>> UInt8.ofNat n)) :: cidrMaskBytes l 0

/-- `net.CIDRMask`; the nil mask is the empty one. -/
def cidrMask (ones bits : Nat) : IP :=
  if bits ≠ 32 ∧ bits ≠ 128 then [] else if bits < ones then [] else cidrMaskBytes (bits / 8) ones

/-- The last address of a network; a mask of another length panics. -/
def lastIP (n : NetIPNet) : Option IP :=
  if n.mask.length ≠ n.ip.length then none
  else some (List.zipWith (fun a m => a ||| ~~~m) n.ip n.mask)

def v4InV6Prefix : IP := [0, 0, 0, 0, 0, 0, 0, 0, 0, 0, 0xff, 0xff]

/-- The addresses that `net.IP.To4` accepts: four bytes, or an IPv4-mapped sixteen. -/
def isIPv4 (ip : IP) : Bool :=
  ip.length == 4 || (ip.length == 16 && ip.take 12 == v4InV6Prefix)

@[simp] theorem length_uiton (i : UInt32) : (uiton i).length = 4 := rfl

@[simp] theorem length_addOne (ip : IP) : (addOne ip).length = ip.length := by simp [addOne]

theorem length_xor {a b : IP} (h : a.length = b.length) : (xor a b).length = a.length := by
  simp [xor, h]

theorem lessThan_iff {a b : IP} (h : a.length = b.length) :
    lessThan a b = true ↔ Bytes.val a < Bytes.val b := by
  simp [lessThan, h, Bytes.compare_neg_iff h]

theorem val_addOne (ip : IP) : Bytes.val (addOne ip) = (Bytes.val ip + 1) % 256 ^ ip.length := by
  simpa [addOne] using Bytes.val_reverse_incr ip.reverse

theorem val_addOne_of_lt {ip : IP} (h : Bytes.val ip + 1 < 256 ^ ip.length) :
    Bytes.val (addOne ip) = Bytes.val ip + 1 := by
  rw [val_addOne, Nat.mod_eq_of_lt h]

theorem val_xor {a b : IP} (h : a.length = b.length) :
    Bytes.val (xor a b) = Bytes.val a ^^^ Bytes.val b := Bytes.val_zipWith_xor h

theorem allFF_iff (ip : IP) : allFF ip = true ↔ Bytes.val ip + 1 = 256 ^ ip.length := by
  induction ip with
  | nil => simp [allFF]
  | cons b bs ih =>
    have hv := Bytes.val_lt bs
    have hb : b.toNat ≤ 255 := Nat.le_of_lt_succ (UInt8.toNat_lt b)
    have hff : allFF (b :: bs) = true ↔ b = 0xff ∧ allFF bs = true := by simp [allFF]
    have hval : b = 0xff ↔ b.toNat = 255 := by
      constructor
      · rintro rfl; rfl
      · intro h; exact UInt8.toNat_inj.mp h
    rw [hff, ih, hval, Bytes.val_cons, List.length_cons, pow_succ]
    constructor
    · intro h
      rcases h with ⟨h1, h2⟩
      rw [h1]; omega
    · intro h
      have hm : b.toNat * 256 ^ bs.length ≤ 255 * 256 ^ bs.length := Nat.mul_le_mul_right _ hb
      have he : b.toNat * 256 ^ bs.length = 255 * 256 ^ bs.length := by omega
      exact ⟨Nat.eq_of_mul_eq_mul_right (by positivity) he, by omega⟩

end Dni
