import Dni.FloodBlocks

namespace Dni.Dms

open Loops

inductive Proto
  | icmp
  | tcp
  | udp
deriving DecidableEq

/-- The protocol that an attack type of flood detection belongs to; floods of unreachable messages
are reported as reflection. -/
def AT.proto : AT → Option Proto
  | .icmp | .reflectUdp => some .icmp
  | .tcp | .tcpSyn | .tcpAck | .tcpFin | .tcpRst => some .tcp
  | .udp => some .udp
  | _ => none

/-- The flag values that the switch has a case for. -/
def knownFlags : List UInt8 :=
  [0, tcpFlagSyn, tcpFlagSynPsh, tcpFlagAck, tcpFlagAckPsh, tcpFlagFin, tcpFlagRst, tcpFlagSynAck,
    tcpFlagFinAck, tcpFlagRstAck]

section Alarms

variable {F : Type} [FloatArith F] (th : ProtoThreshold F)

/-- The speed estimated for a counter reaches the threshold of a protocol. -/
def Floods (proto : String) (stat : ProtoStat F) (count : Int) : Prop :=
  th.getPPSThreshold proto true ≤ estimatedSpeed count stat.ratio

/-- The responds of one device say what its counters say. -/
structure AlarmsMatch (stat : ProtoStat F) (rs : List AttackInfo) : Prop where
  udp : (∃ r ∈ rs, ∃ t ∈ r.type, t.proto = some .udp) ↔ Floods th protoStrUdp stat stat.udpTotal
  icmp : (∃ r ∈ rs, ∃ t ∈ r.type, t.proto = some .icmp) ↔
    ∃ k n, stat.icmpType.lookup k = some n ∧ Floods th protoStrIcmp stat n
  tcp : ∃ flags : List UInt8, flags.Nodup ∧
    (∀ f, f ∈ flags ↔ f ∈ knownFlags ∧
      ∃ n, stat.tcpFlag.lookup f = some n ∧ Floods th protoStrTcp stat n) ∧
    List.Forall₂ (fun f r => flagmap f ∈ r.type) flags (rs.filter (AT.tcp ∈ ·.type))
  own : ∀ r ∈ rs, ∃ p : Proto, ∀ t ∈ r.type, t.proto = some p

end Alarms

theorem diagICMPAttack_keeps (a : AttackInfo) (sip : List IPCount) (est : GoMap String Unit)
    (cap : Capability) : (diagICMPAttack a sip est cap).type = a.type ∧
      (diagICMPAttack a sip est cap).dev = a.dev := by
  unfold diagICMPAttack
  dsimp only
  split <;> simp

theorem sourcesElsePorts_keeps (ch : Choices) (a : AttackInfo) (stat : TransStat) (cap : Capability)
    (proto : String) (listen : GoMap UInt16 Unit) (rand : Bool) (spoofed : List String) :
    (sourcesElsePorts ch a stat cap proto listen rand spoofed).type = a.type ∧
      (sourcesElsePorts ch a stat cap proto listen rand spoofed).dev = a.dev := by
  unfold sourcesElsePorts
  split
  next => simp
  next => split <;> simp

section Keeps

variable {F : Type} [FloatArith F]

theorem diagTCPFlood_keeps {ch : Choices} {a r : AttackInfo} {stat : TransStat} {flag : UInt8} {thtcp : Nat}
    {th : ProtoThreshold F} {cap : Capability} {tcp : PortInfo} {est : GoMap String Unit}
    (h : diagTCPFlood ch a stat flag thtcp th cap tcp est = some r) : r.type = a.type ∧ r.dev = a.dev := by
  obtain ⟨⟨rand, spoofed⟩, _, hr⟩ := Option.map_eq_some_iff.mp h
  subst hr
  dsimp only
  split
  next => simp
  next =>
    split
    next => simp
    next => split <;> simp

theorem diagTCPSynFlood_keeps {ch : Choices} {a r : AttackInfo} {stat : TransStat} {cap : Capability}
    {tcp : PortInfo} {est : GoMap String Unit} (h : diagTCPSynFlood ch a stat cap tcp est = some r) :
    r.type = a.type ∧ r.dev = a.dev := by
  obtain ⟨⟨rand, spoofed⟩, _, hr⟩ := Option.map_eq_some_iff.mp h
  subst hr
  exact sourcesElsePorts_keeps ch a stat cap protoStrTcp tcp.listen rand spoofed

theorem diagUDPFlood_keeps {ch : Choices} {a r : AttackInfo} {stat : TransStat} {thudp : Nat}
    {cap : Capability} {udp : PortInfo} {est : GoMap String Unit}
    (h : diagUDPFlood ch a stat thudp cap udp est = some r) : r.type = a.type ∧ r.dev = a.dev := by
  obtain ⟨⟨rand, spoofed⟩, _, hr⟩ := Option.map_eq_some_iff.mp h
  subst hr
  exact sourcesElsePorts_keeps ch a stat cap protoStrUdp udp.listen rand spoofed

end Keeps

section Devices

variable (sch : Schedule ℚ) (th : ProtoThreshold ℚ) (cap : Capability) (ct : CtInfo)

/-- What a diagnosis of one flag sets. -/
def TcpAlarm (dev : String) (flag : UInt8) (r : AttackInfo) : Prop :=
  r.type = [flagmap flag, .tcp] ∧ r.dev = dev

theorem tcpFlagRespond_known (tcp udp : PortInfo) (dev : String) {stat : ProtoStat ℚ} (h : stat.Sources)
    {flag : UInt8} (hk : flag ∈ knownFlags) :
    ∃ r, tcpFlagRespond sch th cap ct tcp dev stat flag = some [r] ∧ TcpAlarm dev flag r := by
  have hsip := tcpFlag_texts sch dev h flag
  unfold tcpFlagRespond
  dsimp only
  split
  next => exact ⟨_, rfl, rfl, rfl⟩
  next h0 =>
    split
    next =>
      obtain ⟨r, hr, _⟩ := diagTCPSynFlood_safe ct tcp udp (sch.diag dev (.tcp flag))
        { dev := dev, type := [flagmap flag, .tcp] } cap hsip
      exact ⟨r, by rw [hr]; rfl, diagTCPSynFlood_keeps hr⟩
    next hsyn =>
      split
      next =>
        obtain ⟨r, hr, _⟩ := diagTCPFlood_safe ct tcp udp (sch.diag dev (.tcp flag))
          { dev := dev, type := [flagmap flag, .tcp] } flag
          (toUint64 (estimatedThresh (th.getPPSThreshold protoStrTcp true) stat.ratio)) th cap hsip
        exact ⟨r, by rw [hr]; rfl, diagTCPFlood_keeps hr⟩
      next hrest =>
        simp only [knownFlags, List.mem_cons, List.not_mem_nil, or_false] at hk hsyn hrest
        tauto

theorem tcpFlagRespond_unknown (tcp : PortInfo) (dev : String) (stat : ProtoStat ℚ) {flag : UInt8}
    (hk : flag ∉ knownFlags) : tcpFlagRespond sch th cap ct tcp dev stat flag = some [] := by
  simp only [knownFlags, List.mem_cons, List.not_mem_nil, or_false, not_or] at hk
  obtain ⟨h0, h1, h2, h3, h4, h5, h6, h7, h8, h9⟩ := hk
  simp [tcpFlagRespond, h0, h1, h2, h3, h4, h5, h6, h7, h8, h9]

/-- Dividing by a positive ratio keeps the order, and so does cutting the fraction off. -/
theorem estimatedSpeed_mono {ratio : ℚ} (hr : 0 < ratio) {m n : Int} (h : m ≤ n) :
    estimatedSpeed m ratio ≤ estimatedSpeed n ratio := by
  have hq : (m : ℚ) / ratio ≤ (n : ℚ) / ratio :=
    div_le_div_of_nonneg_right (by exact_mod_cast h) hr.le
  exact toInt_mono hq

theorem icmpResponds_alarms (dev : String) (stat : ProtoStat ℚ) :
    (∀ r ∈ icmpResponds sch th cap ct dev stat,
        r.dev = dev ∧ ∃ t : AT, t.proto = some .icmp ∧ r.type = [t]) ∧
      (icmpResponds sch th cap ct dev stat ≠ [] ↔
        ∃ k n, stat.icmpType.lookup k = some n ∧ Floods th protoStrIcmp stat n) := by
  unfold icmpResponds
  dsimp only
  split
  next hnone =>
    refine ⟨by simp, ?_⟩
    simp only [ne_eq, not_true_eq_false, false_iff]
    intro hex
    obtain ⟨k, n, hn, hfl⟩ := hex
    have hslow := List.find?_eq_none.mp hnone (k, n) ((sch.types dev).mem_run.mpr hn)
    unfold Floods at hfl
    simp only [Bool.not_eq_true', decide_eq_false_iff_not, not_not] at hslow
    omega
  next k n hsome =>
    refine ⟨?_, ?_⟩
    · intro r hr
      rw [List.mem_singleton] at hr
      subst hr
      obtain ⟨ht, hd⟩ := diagICMPAttack_keeps
        { dev := dev, type := [if k = icmpv4TypeDestinationUnreachable then AT.reflectUdp else AT.icmp] }
        (sortIPCountMapByCount (sch.diag dev .icmp) stat.rawIcmpsrc (-1)) ct.est cap
      refine ⟨hd, _, ?_, ht⟩
      split <;> rfl
    · have hfast := List.find?_some hsome
      have hmem := (sch.types dev).mem_run.mp (List.mem_of_find?_eq_some hsome)
      simp only [Bool.not_eq_true', decide_eq_false_iff_not] at hfast
      have hfl : Floods th protoStrIcmp stat n := by
        unfold Floods
        omega
      simpa using ⟨k, n, hmem, hfl⟩

/-- The early exit loses no flag: a flag floods only where the total does. -/
theorem tcpResponds_alarms (tcp udp : PortInfo) (dev : String) {stat : ProtoStat ℚ} (h : stat.Sources)
    (hr : 0 < stat.ratio) (hle : ∀ f n, stat.tcpFlag.lookup f = some n → n ≤ stat.tcpTotal) :
    ∃ ts flags, tcpResponds sch th cap ct tcp dev stat = some ts ∧ flags.Nodup ∧
      (∀ f, f ∈ flags ↔ f ∈ knownFlags ∧
        ∃ n, stat.tcpFlag.lookup f = some n ∧ Floods th protoStrTcp stat n) ∧
      List.Forall₂ (TcpAlarm dev) flags ts := by
  unfold tcpResponds
  dsimp only
  split
  next hslow =>
    refine ⟨[], [], rfl, List.nodup_nil, fun f => ?_, .nil⟩
    simp only [List.not_mem_nil, false_iff, not_and]
    intro _ hex
    obtain ⟨n, hn, hfl⟩ := hex
    have hmono := estimatedSpeed_mono hr (hle f n hn)
    unfold Floods at hfl
    omega
  next hfast =>
    obtain ⟨ts, hts, hf⟩ := mapM_flatten_filter
      (f := fun e : UInt8 × Int => if estimatedSpeed e.2 stat.ratio < th.getPPSThreshold protoStrTcp true
        then some [] else tcpFlagRespond sch th cap ct tcp dev stat e.1)
      (p := fun e => decide (¬ estimatedSpeed e.2 stat.ratio < th.getPPSThreshold protoStrTcp true) &&
        decide (e.1 ∈ knownFlags))
      (R := fun e r => TcpAlarm dev e.1 r) (l := (sch.flags dev).run stat.tcpFlag)
      (fun e _ hp => by
        simp only [Bool.and_eq_true, decide_eq_true_eq] at hp
        rw [if_neg hp.1]
        exact tcpFlagRespond_known sch th cap ct tcp udp dev h hp.2)
      (fun e _ hp => by
        simp only [Bool.and_eq_false_iff, decide_eq_false_iff_not, not_not] at hp
        split
        next => rfl
        next hc => exact tcpFlagRespond_unknown sch th cap ct tcp dev stat (hp.resolve_left hc))
    refine ⟨ts, _, hts, ?_, fun f => ?_, List.forall₂_map_left_iff.mpr hf⟩
    · exact (((sch.flags dev).keys_nodup stat.tcpFlag).sublist (List.filter_sublist.map _))
    · simp only [List.mem_map, List.mem_filter, Bool.and_eq_true, decide_eq_true_eq, Prod.exists,
        exists_and_right, exists_eq_right, (sch.flags dev).mem_run]
      unfold Floods
      simp only [not_lt]
      tauto

theorem udpResponds_alarms (udp : PortInfo) (dev : String) {stat : ProtoStat ℚ} (h : stat.Sources) :
    ∃ us, udpResponds sch th cap ct udp dev stat = some us ∧
      (∀ r ∈ us, r.dev = dev ∧ r.type = [.udp]) ∧
      (us ≠ [] ↔ Floods th protoStrTcp stat stat.udpTotal) := by
  unfold udpResponds Floods
  dsimp only
  split
  next hslow => exact ⟨[], rfl, by simp, by simpa using hslow⟩
  next hfast =>
    obtain ⟨r, hr, _⟩ := diagUDPFlood_safe_iff ct udp udp (sch.diag dev .udp)
      { dev := dev, type := [.udp] } (udpThresh th stat) cap (sip_texts (sch.diag dev .udp) h.udpMetas)
    rw [udpThresh] at hr
    obtain ⟨ht, hd⟩ := diagUDPFlood_keeps hr
    refine ⟨[r], by rw [hr]; rfl, ?_, by simpa using hfast⟩
    intro x hx
    rw [List.mem_singleton] at hx
    subst hx
    exact ⟨hd, ht⟩

end Devices

end Dni.Dms
