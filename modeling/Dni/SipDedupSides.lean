import Dni.SipDedupWritten
import Dni.SipDedupStats

namespace Dni

open GoMap

/-- A network of attackers. The length is positive: the C++ code shifts a 32-bit number by `32 - len`,
and a shift by all 32 bits is undefined. -/
structure Prefix where
  ip : UInt32
  len : Nat
  pos : 0 < len
  le : len ≤ 32
deriving DecidableEq

theorem not_slash_mem_digits (n : Nat) : '/' ∉ Nat.toDigits 10 n := by
  intro h
  have hd := Nat.isDigit_of_mem_toDigits (by omega) (by omega) h
  exact absurd hd (by decide)

namespace Prefix

def cpp (n : Prefix) : Cpp.CIDR := ⟨n.ip, n.len⟩

def go (n : Prefix) : NetIPNet := ⟨uiton n.ip, cidrMask n.len 32⟩

/-- The addresses that agree with the network in its first bits. -/
def Has (n : Prefix) (a : UInt32) : Prop := a.toNat / 2 ^ (32 - n.len) = n.ip.toNat / 2 ^ (32 - n.len)

instance (n : Prefix) (a : UInt32) : Decidable (n.Has a) := inferInstanceAs (Decidable (_ = _))

theorem go_short (n : Prefix) : n.go.Short :=
  ⟨rfl, 32 - n.len, Nat.sub_le _ _, by rw [Nat.sub_sub_self n.le, go]⟩

theorem belongs_iff (n : Prefix) (a : UInt32) : Cpp.belongs n.cpp a = true ↔ n.Has a := by
  have hpos := n.pos
  have hle : ¬ 32 < n.cpp.len := Nat.not_lt.mpr n.le
  have hshift : (UInt32.ofNat (32 - n.len)).toNat % 32 = 32 - n.len := by
    rw [UInt32.toNat_ofNat', Nat.mod_eq_of_lt (by omega), Nat.mod_eq_of_lt (by omega)]
  have hzero : (n.cpp.ip ^^^ a) >>> UInt32.ofNat (32 - n.cpp.len) = 0 ↔ n.Has a := by
    rw [← UInt32.toNat_inj, UInt32.toNat_shiftRight, UInt32.toNat_xor, show n.cpp.len = n.len from rfl, hshift,
      Nat.shiftRight_xor_distrib, UInt32.toNat_zero, Nat.xor_eq_zero_iff, Nat.shiftRight_eq_div_pow,
      Nat.shiftRight_eq_div_pow, Has, eq_comm]
    rfl
  rw [← hzero, Cpp.belongs, if_neg hle]
  simp

theorem contains_iff (n : Prefix) (a : UInt32) : n.go.contains (uiton a) = true ↔ n.Has a := by
  have hlen : 8 * (uiton n.ip).length - (32 - n.len) = n.len := by
    have := n.le
    rw [length_uiton]
    omega
  have hmask : cidrMask n.len 32 = cidrMaskBytes (uiton n.ip).length (8 * (uiton n.ip).length - (32 - n.len)) := by
    rw [hlen]
    exact cidrMask_eq (n := 4) (Or.inl rfl) n.le
  rw [n.go_short.contains_iff, NetIPNet.Covers, show n.go.ip = uiton n.ip from rfl,
    show n.go.mask = cidrMask n.len 32 from rfl, hmask,
    zipWith_and_mask_iff (a := uiton a) (b := uiton n.ip) (k := 32 - n.len) rfl (by rw [length_uiton]; omega),
    val_uiton, val_uiton]
  simp [Has]

theorem cppText_inj {n m : Prefix} (h : Cpp.cidrString n.cpp = Cpp.cidrString m.cpp) : n = m := by
  have hlists := congrArg String.toList h
  rw [Cpp.cidrString_toList, Cpp.cidrString_toList] at hlists
  obtain ⟨hip, hlen⟩ := Fields.append_inj (c := '/') (s := [])
    (Or.inr ⟨not_slash_mem_digits _, not_slash_mem_digits _⟩) hlists
  have hipn : n.ip = m.ip := UInt32.toNat_inj.mp (toDigits_inj hip)
  have hlenn : n.len = m.len := toDigits_inj hlen
  cases n
  cases m
  subst hipn hlenn
  rfl

theorem goText_eq (n : Prefix) : n.go.text = String.ofList (dotted (uiton n.ip) ++ '/' :: Nat.toDigits 10 n.len) := by
  obtain ⟨k, hk, hmask, htext⟩ := n.go_short.text_eq
  have hlen : 32 - k = n.len := by
    have hsimple := (mask_text hk).2.2.1
    have hown := (mask_text (k := 32 - n.len) (Nat.sub_le _ _)).2.2.1
    rw [← hmask, show n.go.mask = cidrMask n.len 32 from rfl] at hsimple
    rw [Nat.sub_sub_self n.le, hsimple] at hown
    exact Option.some.inj hown
  rw [htext, hlen]
  rfl

theorem goText_inj {n m : Prefix} (h : n.go.text = m.go.text) : n = m := by
  rw [goText_eq, goText_eq, String.ofList_inj] at h
  obtain ⟨hip, hlen⟩ := Fields.append_inj (c := '/') (s := [])
    (Or.inr ⟨dotted_no_slash (length_uiton _), dotted_no_slash (length_uiton _)⟩) h
  have hipn : n.ip = m.ip := uitoa_inj (congrArg String.ofList hip)
  have hlenn : n.len = m.len := toDigits_inj hlen
  cases n
  cases m
  subst hipn hlenn
  rfl

end Prefix

/-- The packet as the map that the Go task is given. -/
def Cpp.Packet.info (p : Cpp.Packet) : PacketInfo :=
  ((((((∅ : PacketInfo).insert "SIP" p.sip).insert "SPort" p.sport).insert "DPort" p.dport).insert "Proto"
    p.protocol).insert "Length" p.length).insert "DIP" p.dip

theorem Cpp.Packet.info_fields (p : Cpp.Packet) :
    p.info.field "SIP" = p.sip ∧ p.info.field "SPort" = p.sport ∧ p.info.field "DPort" = p.dport ∧
      p.info.field "Proto" = p.protocol ∧ p.info.field "Length" = p.length ∧ p.info.field "DIP" = p.dip := by
  refine ⟨?_, ?_, ?_, ?_, ?_, ?_⟩ <;> rfl

/-- The options of the opened task, as the Go task reads them. -/
def Cpp.SndSIPBaseMergeDeDupTask.go {F : Type} (t : Cpp.SndSIPBaseMergeDeDupTask F) :
    SndSIPBaseMergeDedupOptions F where
  numStats := ⟨t.numKeyLenThresh, t.numRatioMin, t.numRatioMax, t.numLabel.toList⟩
  protoStats := ⟨t.protoRatioMin, t.protoRatioMax, t.protoLabel.toList⟩

/-- One input of both tasks; the histogram has the random addresses as its keys. -/
structure DedupInput where
  task : Cpp.SndSIPBaseMergeDeDupTask ℚ
  networks : List Prefix
  isRand : Bool
  randomIPs : List UInt32
  histogram : IPCount
  mem_histogram : ∀ ip, ip ∈ histogram ↔ ip ∈ randomIPs
  hostNic : String
  packets : List Cpp.Packet

/-- The name of a group in the C++ code. -/
def DedupInput.cppKey : Option Prefix → String
  | some n => Cpp.cidrString n.cpp
  | none => "RANDOM"

/-- The name of a group in the Go code. -/
def DedupInput.goKey : Option Prefix → String
  | some n => n.go.text
  | none => "random"

theorem DedupInput.cppKey_inj {g g' : Option Prefix} (h : cppKey g = cppKey g') : g = g' := by
  cases g with
  | none =>
    cases g' with
    | none => rfl
    | some n => exact absurd h.symm (Cpp.cidrString_ne_random n.cpp)
  | some n =>
    cases g' with
    | none => exact absurd h (Cpp.cidrString_ne_random n.cpp)
    | some m => rw [Prefix.cppText_inj h]

theorem DedupInput.goKey_inj {g g' : Option Prefix} (h : goKey g = goKey g') : g = g' := by
  cases g with
  | none =>
    cases g' with
    | none => rfl
    | some n => exact absurd h.symm n.go.text_ne_random
  | some n =>
    cases g' with
    | none => exact absurd h n.go.text_ne_random
    | some m => rw [Prefix.goText_inj h]

/-- A rule before it is spelled; no source stands for the random group. -/
structure FiveTuple where
  source : Option Prefix
  dip : UInt32
  sport : String
  dport : String
  proto : UInt32
  length : String

def FiveTuple.cpp (hostNic : String) (e : FiveTuple) : RuleStat where
  sip := match e.source with
    | some n => Cpp.cidrString n.cpp
    | none => "RANDOM"
  dip := Nat.repr e.dip.toNat
  sport := e.sport
  dport := e.dport
  proto := Nat.repr e.proto.toNat
  hostNicSign := hostNic
  length := e.length

def FiveTuple.go (hostNic : String) (e : FiveTuple) : RuleStat where
  sip := match e.source with
    | some n => n.go.text
    | none => "random"
  dip := uitoa e.dip
  sport := e.sport
  dport := e.dport
  proto := Nat.repr e.proto.toNat
  hostNicSign := hostNic
  length := e.length

namespace FiveTuple

variable {hostNic : String} {e e' : FiveTuple}

theorem cpp_inj (h : e.cpp hostNic = e'.cpp hostNic) : e = e' := by
  obtain ⟨source, dip, sport, dport, proto, length⟩ := e
  obtain ⟨source', dip', sport', dport', proto', length'⟩ := e'
  simp only [cpp, RuleStat.mk.injEq, true_and] at h
  obtain ⟨hsource, hdip, hsport, hdport, hproto, hlength⟩ := h
  have hs : source = source' := DedupInput.cppKey_inj hsource
  rw [hs, repr_toNat_inj hdip, hsport, hdport, repr_toNat_inj hproto, hlength]

theorem go_inj (h : e.go hostNic = e'.go hostNic) : e = e' := by
  obtain ⟨source, dip, sport, dport, proto, length⟩ := e
  obtain ⟨source', dip', sport', dport', proto', length'⟩ := e'
  simp only [go, RuleStat.mk.injEq, true_and] at h
  obtain ⟨hsource, hdip, hsport, hdport, hproto, hlength⟩ := h
  have hs : source = source' := DedupInput.goKey_inj hsource
  rw [hs, uitoa_inj hdip, hsport, hdport, repr_toNat_inj hproto, hlength]

end FiveTuple

end Dni
