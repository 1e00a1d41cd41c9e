import Dni.DmsDetect
import Dni.FloodBlocks

namespace Dni.Dms

open Loops

section Responds

variable {F : Type} [FloatArith F] (sch : Schedule F) (th : ProtoThreshold F) (cap : Capability) (ct : CtInfo)
  (tcp udp : PortInfo)

/-- A respond that tells of ICMP or TCP only. -/
def Directed (r : AttackInfo) : Prop := ∀ t ∈ r.type, t.proto = some .icmp ∨ t.proto = some .tcp

theorem not_directed {r : AttackInfo} {t : AT} (ht : t ∈ r.type) (hicmp : t.proto ≠ some .icmp)
    (htcp : t.proto ≠ some .tcp) : ¬ Directed r := fun h => (h t ht).elim hicmp htcp

/-- The rule for packets without flags comes with a type of no protocol. -/
theorem tcpFlagRespond_directed (dev : String) {stat : ProtoStat F} (h : stat.Sources) (flag : UInt8) :
    ∃ rs, tcpFlagRespond sch th cap ct tcp dev stat flag = some rs ∧ ∀ r ∈ rs, Directed r → r.Safe ct tcp udp := by
  obtain ⟨rs, hrs, hsafe⟩ := tcpFlagRespond_safe_iff sch th cap ct tcp udp dev h flag
  refine ⟨rs, hrs, fun r hr hdirected => ?_⟩
  by_cases h0 : flag = 0
  · subst h0
    rw [tcpFlagRespond, if_pos rfl] at hrs
    cases hrs
    rw [List.mem_singleton] at hr
    subst hr
    exact absurd hdirected (not_directed (t := flagmap 0) List.mem_cons_self (by decide) (by decide))
  · exact hsafe.mpr h0 r hr

theorem tcpResponds_directed (dev : String) {stat : ProtoStat F} (h : stat.Sources) :
    ∃ rs, tcpResponds sch th cap ct tcp dev stat = some rs ∧ ∀ r ∈ rs, Directed r → r.Safe ct tcp udp := by
  unfold tcpResponds
  dsimp only
  split
  next => exact ⟨[], rfl, by simp⟩
  next =>
    have hflag : ∀ e ∈ (sch.flags dev).run stat.tcpFlag,
        ∃ rs, (if estimatedSpeed e.2 stat.ratio < th.getPPSThreshold protoStrTcp true then some []
          else tcpFlagRespond sch th cap ct tcp dev stat e.1) = some rs ∧ ∀ r ∈ rs, Directed r → r.Safe ct tcp udp := by
      intro e _
      split
      next => exact ⟨[], rfl, by simp⟩
      next => exact tcpFlagRespond_directed sch th cap ct tcp udp dev h e.1
    obtain ⟨yss, hyss, hf⟩ := mapM_forall₂ hflag
    refine ⟨yss.flatten, by rw [hyss]; rfl, fun r hr => ?_⟩
    obtain ⟨ys, hys, hin⟩ := List.mem_flatten.mp hr
    obtain ⟨_, _, hsafe⟩ := forall₂_exists_right hf.flip hys
    exact hsafe r hin

theorem udpResponds_directed (dev : String) {stat : ProtoStat F} (h : stat.Sources) :
    ∃ rs, udpResponds sch th cap ct udp dev stat = some rs ∧ ∀ r ∈ rs, ¬ Directed r := by
  obtain ⟨rs, hrs, _⟩ := udpResponds_safe_iff sch th cap ct udp udp dev h
  refine ⟨rs, hrs, fun r hr => ?_⟩
  unfold udpResponds at hrs
  dsimp only at hrs
  split at hrs
  next =>
    cases hrs
    cases hr
  next =>
    obtain ⟨r', hr', rfl⟩ := Option.map_eq_some_iff.mp hrs
    rw [List.mem_singleton] at hr
    subst hr
    obtain ⟨htype, _⟩ := diagUDPFlood_keeps hr'
    exact not_directed (t := .udp) (by rw [htype]; exact List.mem_cons_self) (by decide) (by decide)

theorem deviceResponds_directed (pd : ProtoDiag F) (dev : String) {stat : ProtoStat F} (h : stat.Sources) :
    ∃ rs, deviceResponds sch th cap ct pd dev stat = some rs ∧ ∀ r ∈ rs, Directed r → r.Safe ct pd.tcp pd.udp := by
  obtain ⟨ts, hts, htcp⟩ := tcpResponds_directed sch th cap ct pd.tcp pd.udp dev h
  obtain ⟨us, hus, hudp⟩ := udpResponds_directed sch th cap ct pd.udp dev h
  have hicmp := icmpResponds_safe sch th cap ct pd.tcp pd.udp dev h
  refine ⟨icmpResponds sch th cap ct dev stat ++ ts ++ us, by rw [deviceResponds, hts, hus]; rfl, fun r hr hd => ?_⟩
  rcases List.mem_append.mp hr with hr | hr
  · rcases List.mem_append.mp hr with hr | hr
    · exact hicmp r hr
    · exact htcp r hr hd
  · exact absurd hd (hudp r hr)

theorem floodAttackDetection_directed (pd : ProtoDiag F)
    (h : ∀ dev stat, pd.stat.lookup dev = some stat → stat.Sources) :
    ∃ resps, floodAttackDetection sch th cap ct (some pd) = some resps ∧
      ∀ r ∈ resps, Directed r → r.Safe ct pd.tcp pd.udp := by
  have hdev : ∀ e ∈ sch.stat.run pd.stat, ∃ rs, deviceResponds sch th cap ct pd e.1 e.2 = some rs ∧
      ∀ r ∈ rs, Directed r → r.Safe ct pd.tcp pd.udp := fun e he =>
    deviceResponds_directed sch th cap ct pd e.1 (h e.1 e.2 (sch.stat.mem_run.mp he))
  obtain ⟨yss, hyss, hf⟩ := mapM_forall₂ hdev
  refine ⟨yss.flatten, by rw [floodAttackDetection, hyss]; rfl, fun r hr => ?_⟩
  obtain ⟨ys, hys, hin⟩ := List.mem_flatten.mp hr
  obtain ⟨_, _, hsafe⟩ := forall₂_exists_right hf.flip hys
  exact hsafe r hin

end Responds

section Pass

variable {P S : Type} (g : Gopacket P S) (isUsable : String → Bool) (ch : DmsChoices S ℚ) (o : DmsOptions ℚ)
  (input : DmsInput P ℚ)

/-- The addresses of the devices that a pass counts the packets of. -/
def DmsInput.Watched (addr : String) : Prop :=
  ∃ dev, Suspected o.assess input.assessorData dev ∧ (∃ p, Abnormal o.assess input.assessorData p) ∧
    dev ∈ input.packet ∧ getAddr dev input.nicIP = addr

/-- A match lets the peers of the watched addresses through, and the ports on which the host waits there. -/
structure LetsThrough (m : Match) : Prop where
  peers : ∀ c ∈ input.tcpconn, input.Watched o c.src → c.src ≠ c.dst → ∀ a, c.dst = uitoa a → ¬ SrcCovers m.srcIP a
  ports : ∀ d ∈ input.listen, ∀ p, Listens isUsable (input.Watched o) d m.ipProto p →
    m.ipProto = protoStrTcp ∨ m.ipProto = protoStrUdp → m.dstPort ≠ portString p
  selective : m.srcIP ≠ "" ∨ m.dstPort ≠ "" ∨ m.srcPort ≠ "" ∨ m.tcpFlags ≠ ""

/-- The rules against floods of ICMP and TCP let through the peers of the host and what goes to its ports, and no rule
matches a whole protocol. -/
theorem detect_lets_through (hg : ProtoCounter.Gopacket.GivesSources g fun s => ∃ a, s = uitoa a)
    (hspeed : ∀ dev ∈ input.assessorData.bw, counter input.assessorData.nicSpeed dev ≠ 0) :
    ∃ fResponds sRespond, detect g isUsable ch o input = some (fResponds, sRespond) ∧
      ∀ r ∈ fResponds, Directed r → ∀ rs, r.pattern = some rs → ∀ m ∈ rs.rules, LetsThrough isUsable o input m := by
  obtain ⟨query, hqueried, hdetect⟩ := detect_queried g isUsable ch o input hspeed
  cases query with
  | none => exact ⟨[], _, hdetect, by simp⟩
  | some q =>
    obtain ⟨ct, pd, hdiag, hd⟩ := dmsProtoDiag_spec g isUsable ch.diag q input.packet input.ratio input.listen
      input.tcpconn input.nicIP
    have hsources : ∀ dev stat, pd.stat.lookup dev = some stat → stat.Sources := by
      intro dev stat hstat
      obtain ⟨m, ps, _, _, _, rfl⟩ := (hd.stat dev stat).mp hstat
      exact (ProtoCounter.run_protoStat_consistent hg _ ps _).toSources
    obtain ⟨fResponds, hrun, hsafe⟩ := floodAttackDetection_directed ch.flood o.pps o.cap ct pd hsources
    refine ⟨fResponds, _, by rw [hdetect, hdiag]; exact congrArg (Option.map _) hrun,
      fun r hr hdirected rs hrs m hm => ?_⟩
    have hmatch := hsafe r hr hdirected rs hrs m hm
    have hwatched : watched q input.packet input.nicIP = input.Watched o := by
      funext addr
      apply propext
      apply Iff.intro
      · rintro ⟨dev, meas, ps, hmeas, _, hps, haddr⟩
        obtain ⟨hsuspected, habnormal, _⟩ := (hqueried.asks dev meas).mp hmeas
        exact ⟨dev, hsuspected, habnormal, GoMap.mem_iff_lookup.mpr ⟨ps, hps⟩, haddr⟩
      · rintro ⟨dev, hsuspected, habnormal, hin, haddr⟩
        obtain ⟨ps, hps⟩ := GoMap.mem_iff_lookup.mp hin
        exact ⟨dev, _, ps, (hqueried.asks dev _).mpr ⟨hsuspected, habnormal, rfl⟩, askedProtos_iff.mp habnormal, hps,
          haddr⟩
    refine ⟨fun c hc hsrc hne a hdst => ?_, fun d hin p hlistens hproto hport => ?_, hmatch.selective⟩
    · refine hmatch.spares a ((hd.est _).mpr ⟨c, hc, ?_, hne, hdst⟩)
      rw [hwatched]
      exact hsrc
    · rw [← hwatched] at hlistens
      obtain ⟨htcp, hudp⟩ := hmatch.closed p hport
      obtain hp | hp := hproto
      · rw [hp] at hlistens
        exact htcp hp ((hd.tcp p).mpr ⟨d, hin, hlistens⟩)
      · rw [hp] at hlistens
        exact hudp hp ((hd.udp p).mpr ⟨d, hin, hlistens⟩)

end Pass

/-- The host that is pinged has a peer and waits on a port. -/
def served : DmsInput IPv4 ℚ :=
  { pinged with
    listen := [AList.insert "SIP" "0.0.0.0" (AList.insert "STATUS" "LISTEN"
      (AList.insert "SPORT" "80" (AList.insert "PROTO" "tcp" ∅)))]
    tcpconn := [⟨"10.0.0.1", "10.0.0.7", "", 0, 0, 80, 1001⟩] }

theorem detect_lets_through_served : ∃ fResponds sRespond,
    detect echoPackets (fun _ => false) storedDms twoPackets served = some (fResponds, sRespond) ∧
      ∀ r ∈ fResponds, Directed r → ∀ rs, r.pattern = some rs → ∀ m ∈ rs.rules,
        ¬ SrcCovers m.srcIP 0x0a000007 ∧ ¬ (m.ipProto = protoStrTcp ∧ m.dstPort = portString 80) := by
  obtain ⟨fResponds, sRespond, hrun, hlets⟩ := detect_lets_through echoPackets (fun _ => false) storedDms twoPackets
    served echoPackets_sources pinged_speed
  refine ⟨fResponds, sRespond, hrun, fun r hr hdirected rs hrs m hm => ?_⟩
  have hthrough := hlets r hr hdirected rs hrs m hm
  refine ⟨?_, ?_⟩
  · refine hthrough.peers _ (List.mem_singleton.mpr rfl) ?_ (by decide) 0x0a000007 (by decide)
    refine ⟨"eth0", ⟨_, AList.lookup_insert _, Or.inr (by decide)⟩, ⟨.icmp, Or.inr ⟨2, by decide, by decide +kernel⟩⟩,
      AList.mem_insert _ |>.mpr (Or.inl rfl), by decide⟩
  · rintro ⟨hproto, hport⟩
    refine hthrough.ports _ (List.mem_singleton.mpr rfl) 80 ?_ (Or.inl hproto) hport
    rw [hproto]
    exact ⟨Or.inl (by decide), Or.inl (by decide), by decide, 80, by decide, by decide⟩

end Dni.Dms
