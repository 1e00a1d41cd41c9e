import Dni.SipDedupRules

namespace Dni.Cpp

open GoMap
open FloatArith (tenths)

def DedupOrders.stored : DedupOrders :=
  ⟨Order.stored, Order.stored, Order.stored, List.dedup, fun _ => List.Perm.refl _⟩

namespace SndSIPBaseMergeDeDupTask

variable {F : Type} [FloatArith F] [LE F] [DecidableLE F] (t : SndSIPBaseMergeDeDupTask F) (o : DedupOrders) (packets : List Packet)
  (r : AttackerIPMergeResult) (hostNicName : String)

/-- The random rules are the texts of the packets of random addresses, under the statistics of the
random group, and a packet of any other source outside the networks writes no rule. -/
structure RandomExact : Prop where
  random : ∀ rule : RuleStat,
    (∃ k, (t.rules o packets r hostNicName).lookup k = some rule) ∧ rule.sip = "RANDOM" ↔
      r.containRandomAttack = true ∧
        ∃ stat, (t.allStat o packets r hostNicName).lookup "RANDOM" = some stat ∧
          ∃ p ∈ packets, p.sip ∈ r.randomIPs ∧ ruleStat "RANDOM" stat p = rule
  innocent : ∀ i p, packets[i]? = some p → ¬ Covered r.attackerIPs p → p.sip ∉ r.randomIPs →
    ∀ key stat, (key, stat, i) ∉ t.rounds o packets r hostNicName

/-- The statistics of the random group exist exactly where a random attack is reported. -/
theorem exists_random_stat :
    (∃ stat, (t.allStat o packets r hostNicName).lookup "RANDOM" = some stat) ↔
      r.containRandomAttack = true := by
  rw [exists_allStat]
  apply Iff.intro
  · intro h
    obtain ⟨p, _, hcov, hk⟩ | ⟨hflag, _⟩ := h
    · exact absurd hcov (groupKey_eq_random_iff.mp hk)
    · exact hflag
  · intro h
    exact Or.inr ⟨h, rfl⟩

/-- The rules for random sources are right exactly if every packet outside the networks comes from a
random address, or no random attack is reported. -/
theorem random_exact_iff (hapart : ∀ p : Packet, p.sip ∈ r.randomIPs → ¬ Covered r.attackerIPs p) :
    t.RandomExact o packets r hostNicName ↔
      (r.containRandomAttack = true → ∀ p ∈ packets, ¬ Covered r.attackerIPs p → p.sip ∈ r.randomIPs) := by
  apply Iff.intro
  · intro h hflag p hp hcov
    by_contra hout
    obtain ⟨i, hi⟩ := List.mem_iff_getElem?.mp hp
    obtain ⟨stat, hstat⟩ := (t.exists_random_stat o packets r hostNicName).mpr hflag
    exact h.innocent i p hi hcov hout "RANDOM" stat
      ((t.mem_rounds o packets r hostNicName).mpr ⟨hstat, p, hi, groupKey_eq_random_iff.mpr hcov⟩)
  · intro h
    refine ⟨fun rule => ?_, ?_⟩
    · rw [exists_rules]
      apply Iff.intro
      · intro h
        rcases h with ⟨⟨key, stat, hstat, p, hp, hk, hrule⟩, hsip⟩
        have hkey : key = "RANDOM" := by rw [← hsip, ← hrule, ruleStat]
        subst hkey
        have hflag := (t.exists_random_stat o packets r hostNicName).mp ⟨stat, hstat⟩
        exact ⟨hflag, stat, hstat, p, hp, h hflag p hp (groupKey_eq_random_iff.mp hk), hrule⟩
      · intro h
        rcases h with ⟨_, stat, hstat, p, hp, hip, hrule⟩
        refine ⟨⟨"RANDOM", stat, hstat, p, hp, groupKey_eq_random_iff.mpr (hapart p hip), hrule⟩, ?_⟩
        rw [← hrule, ruleStat]
    · intro i p hi hcov hout key stat hround
      obtain ⟨hstat, q, hq, hk⟩ := (t.mem_rounds o packets r hostNicName).mp hround
      cases hi.symm.trans hq
      have hkey := (groupKey_eq_random_iff.mpr hcov).symm.trans hk
      subst hkey
      have hflag := (t.exists_random_stat o packets r hostNicName).mp ⟨stat, hstat⟩
      exact hout (h hflag p (List.mem_of_getElem? hi) hcov)

/-- The options of the example configurations. -/
def usual (F : Type) [FloatArith F] : SndSIPBaseMergeDeDupTask F :=
  ⟨tenths 1, tenths 6, 10, #v["centralize", "regular", "random", "void"], tenths 2, tenths 5,
    #v["flood", "rapid", "void"]⟩

/-- A packet of a random attacker, one of an attacker network, and one of neither. -/
def mixedPackets : List Packet :=
  [⟨0x01010101, 1001, 80, 17, 60, 0x0A000001⟩, ⟨0x02020202, 1002, 80, 17, 60, 0x0A000001⟩,
    ⟨0x09090909, 1003, 22, 6, 60, 0x0A000001⟩]

def mixedAttack : AttackerIPMergeResult := ⟨[⟨0x02020200, 24⟩], true, [0x01010101]⟩

theorem mixed_apart (p : Packet) (hp : p.sip ∈ mixedAttack.randomIPs) :
    ¬ Covered mixedAttack.attackerIPs p := by
  intro ⟨c, hc, hb⟩
  have hsip : p.sip = 0x01010101 := List.mem_singleton.mp hp
  have hcidr : c = ⟨0x02020200, 24⟩ := List.mem_singleton.mp hc
  rw [hcidr, hsip] at hb
  exact absurd hb (by decide +kernel)

theorem random_exact_iff_apart :
    (usual Float).RandomExact DedupOrders.stored (mixedPackets.take 2) mixedAttack "eth0" := by
  have hrandom : ∀ p ∈ mixedPackets.take 2, ¬ Covered mixedAttack.attackerIPs p → p.sip ∈ mixedAttack.randomIPs := by
    decide +kernel
  exact (random_exact_iff (usual Float) DedupOrders.stored (mixedPackets.take 2) mixedAttack "eth0" mixed_apart).mpr
    fun _ => hrandom

/-- The packet of neither is written as a random one. -/
theorem mixed_not_exact : (∀ p : Packet, p.sip ∈ mixedAttack.randomIPs → ¬ Covered mixedAttack.attackerIPs p) ∧
    ¬ (usual Float).RandomExact DedupOrders.stored mixedPackets mixedAttack "eth0" := by
  refine ⟨mixed_apart, fun h => ?_⟩
  obtain ⟨stat, hstat⟩ := ((usual Float).exists_random_stat DedupOrders.stored mixedPackets mixedAttack "eth0").mpr rfl
  exact h.innocent 2 _ rfl (by decide +kernel) (by decide +kernel) "RANDOM" stat
    (((usual Float).mem_rounds DedupOrders.stored mixedPackets mixedAttack "eth0").mpr
      ⟨hstat, _, rfl, by decide +kernel⟩)

end SndSIPBaseMergeDeDupTask

end Dni.Cpp
