import Dni.FloodDetection
import Dni.FloodMerge

namespace Dni.Dms

/-- A match that can be dropped without touching an established peer, a listening port or a whole
protocol. -/
structure SafeMatch (ct : CtInfo) (tcp udp : PortInfo) (m : Match) : Prop where
  spares : ∀ a, uitoa a ∈ ct.est → ¬ SrcCovers m.srcIP a
  closed : ∀ p, m.dstPort = portString p →
    (m.ipProto = protoStrTcp → p ∉ tcp.listen) ∧ (m.ipProto = protoStrUdp → p ∉ udp.listen)
  selective : m.srcIP ≠ "" ∨ m.dstPort ≠ "" ∨ m.srcPort ≠ "" ∨ m.tcpFlags ≠ ""

def SafePattern (ct : CtInfo) (tcp udp : PortInfo) (rs : RuleSet) : Prop :=
  ∀ m ∈ rs.rules, SafeMatch ct tcp udp m

/-- The directly mitigated rules of one respond are safe. -/
def AttackInfo.Safe (ct : CtInfo) (tcp udp : PortInfo) (r : AttackInfo) : Prop :=
  ∀ rs, r.pattern = some rs → SafePattern ct tcp udp rs

/-- The sources that the packet counter records are texts of IPv4 addresses. -/
structure ProtoStat.Sources {F : Type} (stat : ProtoStat F) : Prop where
  icmpsrc : ∀ s ∈ stat.rawIcmpsrc.keys, ∃ a, s = uitoa a
  tcpMetas : ∀ flag metas, stat.rawTcpFlag.lookup flag = some metas → ∀ m ∈ metas, ∃ a, m.rip = uitoa a
  udpMetas : ∀ m ∈ stat.rawUdpMetas, ∃ a, m.rip = uitoa a

/-- Counters as the packet counter leaves them: the totals agree with the recorded packets. -/
structure ProtoStat.Consistent {F : Type} (stat : ProtoStat F) : Prop extends stat.Sources where
  tcpFlag : ∀ flag, stat.tcpFlag.lookup flag =
    (stat.rawTcpFlag.lookup flag).map fun metas => (metas.length : Int)
  tcpTotal : ((GoMap.pairs stat.tcpFlag).map Prod.snd).sum ≤ stat.tcpTotal
  udpTotal : (stat.rawUdpMetas.length : Int) ≤ stat.udpTotal

section Patterns

variable (ct : CtInfo) (tcp udp : PortInfo)

theorem safe_empty : SafePattern ct tcp udp (RuleSet.new []) := by
  intro m hm
  simp [RuleSet.mem_new] at hm

theorem portString_ne {p : UInt16} : "" ≠ portString p := (portString_ne_empty p).symm

theorem safeMatch_source {m : Match} (hs : m.srcIP ≠ "") (hp : m.dstPort = "") :
    SafeMatch ct tcp udp m ↔ ∀ a, uitoa a ∈ ct.est → ¬ SrcCovers m.srcIP a := by
  constructor
  · exact SafeMatch.spares
  · intro h
    exact ⟨h, fun p hd => absurd (hp ▸ hd) portString_ne, Or.inl hs⟩

theorem safe_l3Rules {ss : List String} (hne : ∀ s ∈ ss, s ≠ "") :
    SafePattern ct tcp udp (l3Rules ss) ↔
      ∀ a, uitoa a ∈ ct.est → ¬ ∃ s ∈ ss, SrcCovers s a := by
  have hmem : ∀ m, m ∈ (l3Rules ss).rules ↔ ∃ s ∈ ss, (genL3Rule s .drop 0).toMatch = m := by
    intro m
    simp [l3Rules, RuleSet.mem_add, RuleSet.mem_new]
  have hsafe : ∀ s ∈ ss, SafeMatch ct tcp udp (genL3Rule s .drop 0).toMatch ↔
      ∀ a, uitoa a ∈ ct.est → ¬ SrcCovers s a := by
    intro s hs
    rw [genL3Rule, limited_toMatch]
    exact safeMatch_source ct tcp udp (hne s hs) rfl
  constructor
  · rintro h a ha ⟨s, hs, hc⟩
    exact (hsafe s hs).mp (h _ ((hmem _).mpr ⟨s, hs, rfl⟩)) a ha hc
  · intro h m hm
    obtain ⟨s, hs, rfl⟩ := (hmem m).mp hm
    exact (hsafe s hs).mpr fun a ha hc => h a ha ⟨s, hs, hc⟩

theorem safe_portRules (ch : Choices) {proto : String} {dstPort : GoMap UInt16 Nat}
    {keep : UInt16 → Bool} (hicmp : proto ≠ protoStrIcmp)
    (hkeep : ∀ p, keep p = true →
      (proto = protoStrTcp → p ∉ tcp.listen) ∧ (proto = protoStrUdp → p ∉ udp.listen)) :
    SafePattern ct tcp udp (portRules ch proto dstPort keep) := by
  intro m hm
  simp only [portRules, RuleSet.mem_add, RuleSet.mem_new, List.not_mem_nil, false_and, exists_false,
    false_or, List.mem_map, List.mem_filter, exists_exists_and_eq_and] at hm
  obtain ⟨p, ⟨_, hp⟩, rfl⟩ := hm
  rw [genPortRule, limited_toMatch, if_neg hicmp, if_neg (by decide)]
  refine ⟨fun a _ => not_srcCovers_empty a, fun q hq => ?_, Or.inr (Or.inl (portString_ne_empty p))⟩
  rw [← portString_inj hq]
  exact hkeep p hp

end Patterns

section Sources

/-- The sources of packets with IPv4 texts have IPv4 texts. -/
theorem sip_texts (ch : Choices) {data : List PktMeta} (h : ∀ m ∈ data, ∃ a, m.rip = uitoa a) :
    ∀ c ∈ (calcTransStat ch data).sip, ∃ a, c.ip = uitoa a := by
  intro c hc
  have hmem : c.ip ∈ countBy PktMeta.rip data :=
    GoMap.mem_iff_lookup.mpr ⟨_, mem_sortIPCountMapByCount.mp hc⟩
  obtain ⟨m, hm, he⟩ := (GoMap.mem_accumulate PktMeta.rip 0 (fun n _ => n + 1)).mp hmem
  obtain ⟨a, ha⟩ := h m hm
  exact ⟨a, he ▸ ha⟩

/-- Merging the new sources above a threshold gives texts that stand for exactly these sources. -/
theorem isRandSrc3_spec (ch : Choices) (cap : Capability) (est : GoMap String Unit) (th : Nat)
    {sip : List IPCount} (h : ∀ c ∈ sip, ∃ a, c.ip = uitoa a) :
    ∃ rand ss, isRandSrc3 ch (classifySrcIPs est th sip).newhigh (classifySrcIPs est th sip).newlow cap =
        some (rand, ss) ∧ (∀ s ∈ ss, s ≠ "") ∧
      ∀ a, (∃ s ∈ ss, SrcCovers s a) ↔ ∃ c ∈ sip, th < c.count ∧ c.ip ∉ est ∧ c.ip = uitoa a := by
  obtain ⟨ss, hss, hcov, hne⟩ := mergeIps_spec ch fun c hc => h c (mem_newhigh.mp hc).1
  refine ⟨_, ss, by rw [isRandSrc3, hss]; rfl, hne, fun a => (hcov a).trans ?_⟩
  simp only [mem_newhigh, and_assoc]

end Sources

end Dni.Dms
