import Dni.DmsAgree

namespace Dni.Cpp

open GoMap

/-- The text of a number as one character is no decimal text but that of the digit with this code. -/
theorem charText_eq_decimal {n : Int} {m : Nat} (h : charText n = Nat.repr m) : m < 10 ∧ n % 256 = 48 + m := by
  have hcode : ∀ k : Fin 256, (Char.ofNat k.val).toNat = k.val := by decide +kernel
  have hdigit : ∀ m : Fin 10, (Nat.digitChar m.val).toNat = 48 + m.val := by decide
  have hlists := congrArg String.toList h
  rw [charText, String.toList_singleton, toList_repr] at hlists
  have hm : m < 10 := by
    by_contra hno
    rw [Nat.toDigits_of_base_le (by omega) (by omega)] at hlists
    have hlen := congrArg List.length hlists
    have hpos := @Nat.length_toDigits_pos 10 (m / 10)
    rw [List.length_append, List.length_singleton, List.length_singleton] at hlen
    omega
  rw [Nat.toDigits_of_lt_base hm, List.singleton_inj] at hlists
  have hk := hcode ⟨(n % 256).toNat, by omega⟩
  have hd := hdigit ⟨m, hm⟩
  dsimp only at hk hd
  rw [← hlists, hk] at hd
  omega

namespace SndGenDMSRulesTask

variable (ports : Order UInt32 Unit) (protos : Order UInt32 String) (stat : SIPBaseMergeStats)
  (netdev : Netdev)

/-- The destination ports to make rules for, or -1. -/
def duePorts : List Int :=
  if stat.dstPort.statType = "centralize" ∧ stat.dstPort.value.keys ≠ [] then
    stat.dstPort.value.keys.map fun p => p.toNat
  else [-1]

def dueProtocols : List Int :=
  if stat.protocol.keys ≠ [] then stat.protocol.keys.map fun p => p.toInt32.toInt else [-1]

/-- One rule for each port and protocol, with the port in decimal. -/
def dueRules : List DMSRule :=
  (duePorts stat).flatMap fun dPort => (dueProtocols stat).map fun protocol =>
    { hostNicSign := stat.hostNicSign
      srcIP := ⟨stat.srcIP.ip, stat.srcIP.len⟩
      dPort := toString dPort
      protocol := protocol
      action := (action stat netdev).1
      limitMode := (action stat netdev).2.1
      limitMaxValue := (action stat netdev).2.2 }

theorem toInt32_toInt {p : UInt32} (h : p.toNat < 10) : p.toInt32.toInt = p.toNat :=
  BitVec.toInt_eq_toNat_of_lt (show 2 * p.toBitVec.toNat < 2 ^ 32 by
    have : p.toBitVec.toNat = p.toNat := rfl
    omega)

/-- The texts of the generated rules are single characters of the ports. -/
theorem dPort_generateDmsRules {x : DMSRule} (hx : x ∈ generateDmsRules ports protos stat netdev) :
    ∃ n, x.dPort = charText n := by
  unfold generateDmsRules at hx
  obtain ⟨dPort, _, hx⟩ := List.mem_flatMap.mp hx
  obtain ⟨protocol, _, hx⟩ := List.mem_map.mp hx
  exact ⟨dPort, by rw [← hx]⟩

/-- A concrete port has a generated rule. -/
theorem exists_rule_of_port (hcentral : stat.dstPort.statType = "centralize") {p : UInt32}
    (hp : p ∈ stat.dstPort.value.keys) :
    ∃ x ∈ generateDmsRules ports protos stat netdev, x.dPort = charText p.toInt32.toInt := by
  have hports : p.toInt32.toInt ∈ (ports.keys stat.dstPort.value).map fun p => p.toInt32.toInt :=
    List.mem_map.mpr ⟨p, (ports.keys_perm _).mem_iff.mpr hp, rfl⟩
  have hne : ∀ l : List Int, ∃ protocol, protocol ∈ if l.length = 0 then [-1] else l := by
    intro l
    split
    next => exact ⟨-1, List.mem_singleton.mpr rfl⟩
    next h => exact List.exists_mem_of_ne_nil l fun hl => h (by rw [hl, List.length_nil])
  obtain ⟨protocol, hprotocol⟩ := hne ((protos.keys stat.protocol).map fun p => p.toInt32.toInt)
  unfold generateDmsRules
  refine ⟨_, List.mem_flatMap.mpr ⟨p.toInt32.toInt, ?_, List.mem_map.mpr ⟨protocol, hprotocol, rfl⟩⟩, rfl⟩
  rw [if_pos hcentral, if_neg fun h => List.ne_nil_of_mem hports (List.length_eq_zero_iff.mp h)]
  exact hports

/-- No group gets the rules that it is due. -/
theorem generateDmsRules_not_due :
    ¬ (generateDmsRules ports protos stat netdev).Perm (dueRules stat netdev) := by
  intro h
  -- every text that is due is one character, so that all ports are digits
  have hdue : ∀ y ∈ dueRules stat netdev, ∃ n, y.dPort = charText n := fun y hy =>
    dPort_generateDmsRules ports protos stat netdev (h.mem_iff.mpr hy)
  obtain ⟨x, hx⟩ := List.exists_mem_of_ne_nil _ (judgement_generateDmsRules ports protos stat netdev).2
  obtain ⟨d, hd, hrule⟩ := List.mem_flatMap.mp (h.mem_iff.mp hx)
  obtain ⟨protocol, hprotocol, _⟩ := List.mem_map.mp hrule
  have hdigits : ∀ d ∈ duePorts stat, ∃ n, charText n = toString d := by
    intro d hd
    obtain ⟨n, hn⟩ := hdue _ (List.mem_flatMap.mpr ⟨d, hd, List.mem_map.mpr ⟨protocol, hprotocol, rfl⟩⟩)
    exact ⟨n, hn.symm⟩
  by_cases hcase : stat.dstPort.statType = "centralize" ∧ stat.dstPort.value.keys ≠ []
  · have hsmall : ∀ p ∈ stat.dstPort.value.keys, p.toNat < 10 := by
      intro p hp
      obtain ⟨n, hn⟩ := hdigits p.toNat (by rw [duePorts, if_pos hcase]; exact List.mem_map.mpr ⟨p, hp, rfl⟩)
      exact (charText_eq_decimal hn).1
    obtain ⟨p, hp⟩ := List.exists_mem_of_ne_nil _ hcase.2
    obtain ⟨y, hy, htext⟩ := exists_rule_of_port ports protos stat netdev hcase.1 hp
    obtain ⟨d', hd', hrule'⟩ := List.mem_flatMap.mp (h.mem_iff.mp hy)
    obtain ⟨_, _, hy'⟩ := List.mem_map.mp hrule'
    rw [duePorts, if_pos hcase] at hd'
    obtain ⟨q, _, hq⟩ := List.mem_map.mp hd'
    have hdecimal : charText p.toInt32.toInt = Nat.repr q.toNat := by
      rw [← htext, ← hy', ← hq]
      rfl
    -- the code of a digit is 48 and more, the port itself is below 10
    have hcode := (charText_eq_decimal hdecimal).2
    have hlt := hsmall p hp
    rw [toInt32_toInt hlt] at hcode
    omega
  · obtain ⟨n, hn⟩ := hdigits (-1) (by rw [duePorts, if_neg hcase]; exact List.mem_singleton.mpr rfl)
    have hlists := congrArg String.toList hn
    rw [charText, String.toList_singleton] at hlists
    have hlen := congrArg List.length hlists
    rw [List.length_singleton] at hlen
    exact absurd hlen (by decide +kernel)

/-- A group with the ports 80 and 336. -/
def twoPorts : SIPBaseMergeStats where
  hostNicSign := "host#eth0"
  dstPort := ⟨"centralize", ((∅ : UIntSet).insert 80 ()).insert 336 ()⟩
  protocol := (∅ : GoMap UInt32 String).insert 6 "flood"

/-- Both ports are spelled P, and the two rules are the same. -/
theorem two_ports_not_due : ¬ (generateDmsRules Order.stored Order.stored twoPorts ⟨100, 1, 10, 0⟩).Perm
    (dueRules twoPorts ⟨100, 1, 10, 0⟩) := by
  intro h
  have hnodup : (generateDmsRules Order.stored Order.stored twoPorts ⟨100, 1, 10, 0⟩).Nodup :=
    h.nodup_iff.mpr (by decide +kernel)
  exact absurd hnodup (by decide +kernel)

end SndGenDMSRulesTask

end Dni.Cpp
