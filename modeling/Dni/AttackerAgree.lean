import Dni.AttackerRandom

namespace Dni

open GoMap Sieve

namespace SndAttackerIPMergeTask

variable (t : SndAttackerIPMergeOptions ℚ) (m : IPCount)

section Plans

variable {t m} (hpos : ∀ e ∈ pairs m, 0 < e.2) (hsum : mass (pairs m) < 2 ^ 31)

include hpos hsum

end Plans

/-- The two results say the same: attackers, decision and random addresses. -/
structure Agree (cpp : Cpp.AttackerIPMergeResult) (go : AttackerIPMergeResult) : Prop where
  attackers : ∀ a, (∃ c ∈ cpp.attackerIPs, c.Covers a) ↔ InNets go.attackerIPNets a
  decision : cpp.containRandomAttack = true ↔ go.isRand = true
  random : ∀ ip, ip ∈ cpp.randomIPs ↔ ip ∈ go.randIPCountDF

/-- A packet each from addresses of many networks. -/
def randomFlood : IPCount :=
  (List.range 24).foldl (fun m k => m.insert (0x0A000001 + 65536 * UInt32.ofNat k) 1) ∅

end SndAttackerIPMergeTask

end Dni
