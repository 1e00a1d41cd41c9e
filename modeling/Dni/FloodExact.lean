import Dni.FloodSafe

namespace Dni.Dms

open Loops

section Diagnoses

variable {F : Type} [FloatArith F] (ct : CtInfo) (tcp udp : PortInfo)

theorem safe_some {a : AttackInfo} {rs : RuleSet} (h : a.pattern = some rs) :
    a.Safe ct tcp udp ↔ SafePattern ct tcp udp rs := by
  simp [AttackInfo.Safe, h]

theorem diagICMPAttack_safe (a : AttackInfo) {sip : List IPCount} (cap : Capability)
    (h : ∀ c ∈ sip, ∃ b, c.ip = uitoa b) : (diagICMPAttack a sip ct.est cap).Safe ct tcp udp := by
  unfold diagICMPAttack
  dsimp only
  split
  next => exact (safe_some ct tcp udp rfl).mpr (safe_empty ct tcp udp)
  next =>
    refine (safe_some ct tcp udp rfl).mpr fun m hm => ?_
    simp only [RuleSet.mem_add, RuleSet.mem_new, List.not_mem_nil, false_and, exists_false, false_or,
      List.mem_map, exists_exists_and_eq_and] at hm
    obtain ⟨c, hc, rfl⟩ := hm
    obtain ⟨hsip, _, hest⟩ := mem_newhigh.mp hc
    obtain ⟨b, hb⟩ := h c hsip
    have hcov : ∀ x, SrcCovers c.ip x ↔ x = b := fun x => by rw [hb, srcCovers_uitoa]
    refine (safeMatch_source ct tcp udp (m := { type := "l3", srcIP := c.ip, ipProto := protoStrIcmp })
      ?_ rfl).mpr fun x hx hc => ?_
    · intro he
      exact not_srcCovers_empty b (he ▸ (hcov b).mpr rfl)
    · exact hest (hb ▸ (hcov x).mp hc ▸ hx)

/-- Sources that no established peer is among are safe to drop. -/
theorem sources_safe {th : Nat} {sip : List IPCount} {ss : List String} (hne : ∀ s ∈ ss, s ≠ "")
    (hcov : ∀ a, (∃ s ∈ ss, SrcCovers s a) ↔
      ∃ c ∈ sip, th < c.count ∧ c.ip ∉ ct.est ∧ c.ip = uitoa a) :
    SafePattern ct tcp udp (l3Rules ss) :=
  (safe_l3Rules ct tcp udp hne).mpr fun a ha hs => by
    obtain ⟨c, _, _, hest, he⟩ := (hcov a).mp hs
    exact hest (he ▸ ha)

theorem tcpPorts_safe (ch : Choices) (dstPort : GoMap UInt16 Nat) :
    SafePattern ct tcp udp (portRules ch protoStrTcp dstPort (· ∉ tcp.listen)) :=
  safe_portRules ct tcp udp ch (by decide) fun p hp =>
    ⟨fun _ => by simpa using hp, fun h => absurd h (by decide)⟩

theorem udpPorts_safe (ch : Choices) (dstPort : GoMap UInt16 Nat) :
    SafePattern ct tcp udp (portRules ch protoStrUdp dstPort (· ∉ udp.listen)) :=
  safe_portRules ct tcp udp ch (by decide) fun p hp =>
    ⟨fun h => absurd h (by decide), fun _ => by simpa using hp⟩

theorem diagTCPFlood_safe (ch : Choices) (a : AttackInfo) {stat : TransStat} (flag : UInt8) (thtcp : Nat)
    (th : ProtoThreshold F) (cap : Capability) (h : ∀ c ∈ stat.sip, ∃ b, c.ip = uitoa b) :
    ∃ r, diagTCPFlood ch a stat flag thtcp th cap tcp ct.est = some r ∧ r.Safe ct tcp udp := by
  obtain ⟨rand, ss, hr, hne, hcov⟩ := isRandSrc3_spec ch cap ct.est thtcp h
  simp only [diagTCPFlood, hr, Option.map_some]
  refine ⟨_, rfl, ?_⟩
  split
  next => exact (safe_some ct tcp udp rfl).mpr (sources_safe ct tcp udp hne hcov)
  next =>
    split
    next => exact (safe_some ct tcp udp rfl).mpr (tcpPorts_safe ct tcp udp ch stat.dstPort)
    next =>
      split
      next => exact (safe_some ct tcp udp rfl).mpr (sources_safe ct tcp udp hne hcov)
      next => exact (safe_some ct tcp udp rfl).mpr (safe_empty ct tcp udp)

theorem diagTCPSynFlood_safe (ch : Choices) (a : AttackInfo) {stat : TransStat} (cap : Capability)
    (h : ∀ c ∈ stat.sip, ∃ b, c.ip = uitoa b) :
    ∃ r, diagTCPSynFlood ch a stat cap tcp ct.est = some r ∧ r.Safe ct tcp udp := by
  obtain ⟨rand, ss, hr, hne, hcov⟩ := isRandSrc3_spec ch cap ct.est 1 h
  simp only [diagTCPSynFlood, hr, Option.map_some]
  refine ⟨_, rfl, ?_⟩
  unfold sourcesElsePorts
  split
  next => exact (safe_some ct tcp udp rfl).mpr (sources_safe ct tcp udp hne hcov)
  next =>
    split
    next => exact (safe_some ct tcp udp rfl).mpr (tcpPorts_safe ct tcp udp ch stat.dstPort)
    next => exact (safe_some ct tcp udp rfl).mpr (safe_empty ct tcp udp)

/-- Whether the sources of UDP packets count as random, established peers or not. -/
def udpRandom (ch : Choices) (cap : Capability) (thudp : Nat) (sip : List IPCount) : Bool :=
  let c := classifySrcIPs ∅ thudp sip
  (isRandSrc3 ch c.newhigh c.newlow cap).any Prod.fst

theorem diagUDPFlood_safe_iff (ch : Choices) (a : AttackInfo) {stat : TransStat} (thudp : Nat)
    (cap : Capability) (h : ∀ c ∈ stat.sip, ∃ b, c.ip = uitoa b) :
    ∃ r, diagUDPFlood ch a stat thudp cap udp ct.est = some r ∧
      (r.Safe ct tcp udp ↔ udpRandom ch cap thudp stat.sip = true ∨
        ∀ c ∈ stat.sip, thudp < c.count → c.ip ∉ ct.est) := by
  obtain ⟨rand, ss, hr, hne, hcov⟩ := isRandSrc3_spec ch cap ∅ thudp h
  simp only [diagUDPFlood, udpRandom, hr, Option.map_some, Option.any_some]
  refine ⟨_, rfl, ?_⟩
  unfold sourcesElsePorts
  cases rand with
  | false =>
    rw [if_pos (by rfl), safe_some ct tcp udp rfl, safe_l3Rules ct tcp udp hne]
    simp only [hcov, AList.notMem_empty, not_false_eq_true, true_and, Bool.false_eq_true, false_or]
    constructor
    · intro hs c hc hth hest
      obtain ⟨b, hb⟩ := h c hc
      exact hs b (hb ▸ hest) ⟨c, hc, hth, hb⟩
    · rintro hs b hb ⟨c, hc, hth, he⟩
      exact hs c hc hth (he ▸ hb)
  | true =>
    rw [if_neg (by simp)]
    refine iff_of_true ?_ (Or.inl rfl)
    split
    next => exact (safe_some ct tcp udp rfl).mpr (udpPorts_safe ct tcp udp ch stat.dstPort)
    next => exact (safe_some ct tcp udp rfl).mpr (safe_empty ct tcp udp)

end Diagnoses

end Dni.Dms
