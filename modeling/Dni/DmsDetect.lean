import Dni.CounterViews
import Dni.FloodThresholds
import Dni.SlowEnds

namespace Dni.Dms

/-- The options of the tasks. -/
structure DmsOptions (F : Type) where
  assess : DmsAssessOptions F
  pps : ProtoThreshold F
  cap : Capability
  tcpConn : TcpConnUtilThreshold

/-- The graph input streams. -/
structure DmsInput (P F : Type) where
  assessorData : AssessorData F
  listen : List CtEntry
  packet : GoMap String (List P)
  tcpconn : List ConnInfo
  ratio : GoMap String F
  nicIP : GoMap String String

/-- The choices that the runtime makes in one pass. -/
structure DmsChoices (S F : Type) where
  bw : GoMap.Order String (GoMap String UInt64)
  arbiter : ArbiterOrders
  diag : ProtoDiagOrders S
  conn : GoMap.Order Measurement Unit
  flood : Schedule F
  slow : SlowChoices

/-- `DmsConnDiagTask.Process`. -/
def dmsConnDiag (ch : SlowChoices) (ord : GoMap.Order Measurement Unit) (tcpconns : List ConnInfo)
    (query : Option Query) : Option ConnDiag :=
  query.map fun query => connAnalyser ch (ord.keys query.conn) tcpconns

section Tasks

variable {P S F : Type} [FloatArith F]

/-- `DmsFloodAttackDetectTask.Process`: both inputs come from the same task, and are nil together. -/
def dmsFloodAttackDetect (sch : Schedule F) (pps : ProtoThreshold F) (cap : Capability) :
    Option (CtInfo × ProtoDiag F) → Option (List AttackInfo)
  | none => some []
  | some (ctInfo, protodiag) => floodAttackDetection sch pps cap ctInfo (some protodiag)

/-- The tasks in the order of their streams. -/
def detect [LE F] [DecidableLE F] [LT F] [DecidableLT F] (g : Gopacket P S) (isUsable : String → Bool)
    (ch : DmsChoices S F) (o : DmsOptions F) (input : DmsInput P F) :
    Option (List AttackInfo × Option SlowRespond) := do
  let assessorInd ← dmsAssess ch.bw o.assess input.assessorData
  let query := (getQuery ch.arbiter assessorInd).1
  let conndiag := dmsConnDiag ch.slow ch.conn input.tcpconn query
  let diag := dmsProtoDiag g isUsable ch.diag query input.packet input.ratio input.listen input.tcpconn input.nicIP
  let fResponds ← dmsFloodAttackDetect ch.flood o.pps o.cap diag
  return (fResponds, slowHttpDetection ch.slow conndiag o.tcpConn input.nicIP)

end Tasks

/-- The counters of a device tell of a flood of a protocol. UDP is compared with the threshold of TCP. -/
def Flooded (th : ProtoThreshold ℚ) (stat : ProtoStat ℚ) : Proto → Prop
  | .icmp => ∃ k n, stat.icmpType.lookup k = some n ∧ Floods th protoStrIcmp stat n
  | .tcp => ∃ f ∈ knownFlags, ∃ n, stat.tcpFlag.lookup f = some n ∧ Floods th protoStrTcp stat n
  | .udp => Floods th protoStrTcp stat stat.udpTotal

/-- An alarm for a protocol on a device. -/
def Alarmed (responds : List AttackInfo) (dev : String) (p : Proto) : Prop :=
  ∃ r ∈ responds, r.dev = dev ∧ ∃ t ∈ r.type, t.proto = some p

section Devices

variable {P S : Type} {g : Gopacket P S}

theorem tcp_respond_iff {dev : String} {ic ts us : List AttackInfo} {flags : List UInt8}
    (hic : ∀ r ∈ ic, r.dev = dev ∧ ∃ t : AT, t.proto = some .icmp ∧ r.type = [t])
    (hts : List.Forall₂ (TcpAlarm dev) flags ts) (hus : ∀ r ∈ us, r.dev = dev ∧ r.type = [.udp]) :
    (∃ r ∈ ic ++ ts ++ us, ∃ t ∈ r.type, t.proto = some .tcp) ↔ ∃ f, f ∈ flags := by
  apply Iff.intro
  · rintro ⟨r, hr, t, ht, hp⟩
    rcases List.mem_append.mp hr with hr | hr
    · rcases List.mem_append.mp hr with hr | hr
      · obtain ⟨_, u, hu, he⟩ := hic r hr
        rw [he, List.mem_singleton] at ht
        rw [ht, hu] at hp
        cases hp
      · obtain ⟨f, hf, _⟩ := tcp_mem_type hts hr
        exact ⟨f, hf⟩
    · rw [(hus r hr).2, List.mem_singleton] at ht
      subst ht
      cases hp
  · rintro ⟨f, hf⟩
    obtain ⟨r, hr, he, _⟩ := Loops.forall₂_exists_right hts hf
    exact ⟨r, by simp [hr], .tcp, by simp [he], rfl⟩

/-- A flag is part of the total. -/
theorem ProtoStat.Consistent.sampled {stat : ProtoStat ℚ} (h : stat.Consistent) (hratio : 0 < stat.ratio) :
    stat.Sampled := by
  refine ⟨h.toSources, hratio, fun f n hf => ?_⟩
  have hnonneg : ∀ x ∈ (GoMap.pairs stat.tcpFlag).map Prod.snd, (0 : Int) ≤ x := by
    intro x hx
    obtain ⟨⟨k, v⟩, hkv, rfl⟩ := List.mem_map.mp hx
    have hv := GoMap.mem_pairs.mp hkv
    rw [h.tcpFlag, Option.map_eq_some_iff] at hv
    obtain ⟨metas, _, hv⟩ := hv
    dsimp only
    omega
  exact (List.single_le_sum hnonneg n (List.mem_map.mpr ⟨(f, n), GoMap.mem_pairs.mpr hf, rfl⟩)).trans h.tcpTotal

/-- The alarms of one device are those of its counters. -/
theorem deviceResponds_alarmed (sch : Schedule ℚ) (th : ProtoThreshold ℚ) (cap : Capability) (ct : CtInfo)
    (pd : ProtoDiag ℚ) (dev : String) {stat : ProtoStat ℚ} (h : stat.Sampled) :
    ∃ rs, deviceResponds sch th cap ct pd dev stat = some rs ∧ (∀ r ∈ rs, r.dev = dev) ∧
      ∀ p, Alarmed rs dev p ↔ Flooded th stat p := by
  obtain ⟨hic, hici⟩ := icmpResponds_alarms sch th cap ct dev stat
  obtain ⟨ts, flags, hts, _, hmem, hf⟩ :=
    tcpResponds_alarms sch th cap ct pd.tcp pd.udp dev h.toSources h.ratio_pos h.flag_le
  obtain ⟨us, hus, hu, hui⟩ := udpResponds_alarms sch th cap ct pd.udp dev h.toSources
  have hdev : ∀ r ∈ icmpResponds sch th cap ct dev stat ++ ts ++ us, r.dev = dev := by
    intro r hr
    rcases List.mem_append.mp hr with hr | hr
    · rcases List.mem_append.mp hr with hr | hr
      · exact (hic r hr).1
      · obtain ⟨_, _, _, hd⟩ := Loops.forall₂_exists_right hf.flip hr
        exact hd
    · exact (hu r hr).1
  have halarmed : ∀ p, Alarmed (icmpResponds sch th cap ct dev stat ++ ts ++ us) dev p ↔
      ∃ r ∈ icmpResponds sch th cap ct dev stat ++ ts ++ us, ∃ t ∈ r.type, t.proto = some p := by
    intro p
    apply Iff.intro
    · rintro ⟨r, hr, _, ht⟩
      exact ⟨r, hr, ht⟩
    · rintro ⟨r, hr, ht⟩
      exact ⟨r, hr, hdev r hr, ht⟩
  refine ⟨_, by rw [deviceResponds, hts, hus]; rfl, hdev, fun p => (halarmed p).trans ?_⟩
  cases p with
  | icmp => exact (icmp_respond_iff hic hf hu).trans hici
  | udp => exact (udp_respond_iff hic hf hu).trans hui
  | tcp =>
    refine (tcp_respond_iff hic hf hu).trans (exists_congr fun f => ?_)
    rw [hmem]

/-- The alarms of a detection are those of its devices. -/
theorem floodAttackDetection_alarmed (sch : Schedule ℚ) (th : ProtoThreshold ℚ) (cap : Capability) (ct : CtInfo)
    (pd : ProtoDiag ℚ) (h : ∀ dev stat, pd.stat.lookup dev = some stat → stat.Sampled) :
    ∃ resps, floodAttackDetection sch th cap ct (some pd) = some resps ∧
      ∀ dev p, Alarmed resps dev p ↔ ∃ stat, pd.stat.lookup dev = some stat ∧ Flooded th stat p := by
  have hdev : ∀ e ∈ sch.stat.run pd.stat, ∃ rs, deviceResponds sch th cap ct pd e.1 e.2 = some rs ∧
      (∀ r ∈ rs, r.dev = e.1) ∧ ∀ p, Alarmed rs e.1 p ↔ Flooded th e.2 p := fun e he =>
    deviceResponds_alarmed sch th cap ct pd e.1 (h e.1 e.2 (sch.stat.mem_run.mp he))
  obtain ⟨yss, hyss, hf⟩ := Loops.mapM_forall₂ hdev
  refine ⟨yss.flatten, by rw [floodAttackDetection, hyss]; rfl, fun dev p => ?_⟩
  apply Iff.intro
  · rintro ⟨r, hr, rfl, ht⟩
    obtain ⟨ys, hys, hin⟩ := List.mem_flatten.mp hr
    obtain ⟨e, he, hown, halarmed⟩ := Loops.forall₂_exists_right hf.flip hys
    have heq := hown r hin
    exact ⟨e.2, sch.stat.mem_run.mp (heq ▸ he), (halarmed p).mp ⟨r, hin, heq, ht⟩⟩
  · rintro ⟨stat, hstat, hflooded⟩
    obtain ⟨ys, hys, _, halarmed⟩ := Loops.forall₂_exists_right hf (sch.stat.mem_run.mpr hstat)
    obtain ⟨r, hin, hrest⟩ := (halarmed p).mpr hflooded
    exact ⟨r, List.mem_flatten.mpr ⟨ys, hys, hin⟩, hrest⟩

/-- The protocols that a counter is made for. -/
def selected (proto : SnmpUtil) : Proto → Bool
  | .icmp => proto.icmp
  | .tcp => proto.icmp || proto.tcp
  | .udp => proto.icmp || proto.udp

theorem not_floods_zero {th : ProtoThreshold ℚ} {proto : String} (h : 0 < th.getPPSThreshold proto true)
    (stat : ProtoStat ℚ) : ¬ Floods th proto stat 0 := by
  have hzero : estimatedSpeed 0 stat.ratio = 0 := by
    have hspeed : estimatedSpeed 0 stat.ratio = toInt (((0 : Int) : ℚ) / stat.ratio) := rfl
    rw [hspeed, Int.cast_zero, zero_div]
    rfl
  rw [Floods, hzero]
  omega

section Views

variable {th : ProtoThreshold ℚ} {c c' : ProtoCounter S} {ratio : ℚ}

theorem flooded_icmp_congr (h : c.icmpView = c'.icmpView) :
    Flooded th (c.protoStat ratio) .icmp ↔ Flooded th (c'.protoStat ratio) .icmp := by
  have hstat : c.icmp = c'.icmp := congrArg (fun v => v.2.1) h
  simp only [Flooded, ProtoCounter.protoStat, Floods, hstat]

theorem flooded_tcp_congr (h : c.tcpView = c'.tcpView) :
    Flooded th (c.protoStat ratio) .tcp ↔ Flooded th (c'.protoStat ratio) .tcp := by
  have hstat : c.tcp = c'.tcp := congrArg (fun v => v.2.1) h
  simp only [Flooded, ProtoCounter.protoStat, Floods, hstat]

theorem flooded_udp_congr (h : c.udpView = c'.udpView) :
    Flooded th (c.protoStat ratio) .udp ↔ Flooded th (c'.protoStat ratio) .udp := by
  have hstat : c.udp = c'.udp := congrArg (fun v => v.2.2.1) h
  simp only [Flooded, ProtoCounter.protoStat, Floods, hstat]

theorem not_flooded_icmp (h : c.icmpView = (false, {}, ∅)) : ¬ Flooded th (c.protoStat ratio) .icmp := by
  have hstat : c.icmp = {} := congrArg (fun v => v.2.1) h
  rintro ⟨k, n, hn, _⟩
  rw [ProtoCounter.protoStat, hstat, GoMap.lookup_mapVal] at hn
  cases hn

theorem not_flooded_tcp (h : c.tcpView = (false, {}, {})) : ¬ Flooded th (c.protoStat ratio) .tcp := by
  have hstat : c.tcp = {} := congrArg (fun v => v.2.1) h
  rintro ⟨f, _, n, hn, _⟩
  rw [ProtoCounter.protoStat, hstat, GoMap.lookup_mapVal] at hn
  cases hn

theorem not_flooded_udp (hth : 0 < th.getPPSThreshold protoStrTcp true) (h : c.udpView = (false, false, {}, {})) :
    ¬ Flooded th (c.protoStat ratio) .udp := by
  have hstat : c.udp = {} := congrArg (fun v => v.2.2.1) h
  have hzero : (c.protoStat ratio).udpTotal = 0 := by rw [ProtoCounter.protoStat, hstat]; rfl
  rw [Flooded, hzero]
  exact not_floods_zero hth _

end Views

/-- The counters that are asked for flood as the plain ones do, and those that are not asked for never. -/
theorem flooded_asked {th : ProtoThreshold ℚ} (hth : 0 < th.getPPSThreshold protoStrTcp true) (ratios : GoMap String ℚ)
    (dev : String) (proto : SnmpUtil) (ps : List P) (p : Proto) :
    Flooded th (deviceStat g ratios dev (parseProtoIndicator (askedProtos proto)) ps) p ↔
      selected proto p = true ∧ Flooded th (deviceStat g ratios dev (ProtoCounter.plainProtos proto) ps) p := by
  obtain ⟨hicmp, htcp, hudp⟩ := ProtoCounter.run_askedProtos g proto ps
  cases p with
  | icmp =>
    rw [selected, deviceStat, deviceStat]
    split at hicmp
    next hon => rw [flooded_icmp_congr hicmp, hon, eq_self_iff_true, true_and]
    next hoff => exact iff_of_false (not_flooded_icmp hicmp) fun h => hoff h.1
  | tcp =>
    rw [selected, deviceStat, deviceStat]
    split at htcp
    next hon => rw [flooded_tcp_congr htcp, hon, eq_self_iff_true, true_and]
    next hoff => exact iff_of_false (not_flooded_tcp htcp) fun h => hoff h.1
  | udp =>
    rw [selected, deviceStat, deviceStat]
    split at hudp
    next hon => rw [flooded_udp_congr hudp, hon, eq_self_iff_true, true_and]
    next hoff => exact iff_of_false (not_flooded_udp hth hudp) fun h => hoff h.1

end Devices

section Slow

/-- The slow detection responds where established connections are asked for and there are enough of them. -/
theorem slow_isSome_iff (ch : SlowChoices) (ord : GoMap.Order Measurement Unit) (conns : List ConnInfo)
    (query : Option Query) (th : TcpConnUtilThreshold) (nicIP : GoMap String String) :
    (slowHttpDetection ch (dmsConnDiag ch ord conns query) th nicIP).isSome = true ↔
      (∃ q, query = some q ∧ Asked (ord.keys q.conn)) ∧ th.fullConn ≤ ((conns.map ConnInfo.flow).dedup).length := by
  cases query with
  | none => simp [dmsConnDiag, slowHttpDetection]
  | some q =>
    have hcount : (GoMap.accumulate ConnInfo.flow () (fun _ _ => ()) conns ∅).keys.length =
        ((conns.map ConnInfo.flow).dedup).length := GoMap.length_accumulate _ _ _ _
    have hquery : (∃ q', some q = some q' ∧ Asked (ord.keys q'.conn)) ↔ Asked (ord.keys q.conn) := by simp
    rw [hquery, ← hcount, dmsConnDiag, Option.map_some, slowHttpDetection, Option.bind_some, connAnalyser,
      tcpConnAnalyser]
    by_cases hs : (connStates (ord.keys q.conn)).keys.length = 0
    · rw [if_pos hs]
      exact iff_of_false (by simp) fun h => connStates_length.mp hs h.1
    · have hasked := not_not.mp (mt connStates_length.mpr hs)
      rw [if_neg hs]
      simp only [groupByLport, Option.bind_some]
      split
      next h => simp [hasked, h]
      next h => simp [h]

end Slow

section Pass

variable {P S : Type} (g : Gopacket P S) (isUsable : String → Bool) (ch : DmsChoices S ℚ) (o : DmsOptions ℚ)
  (input : DmsInput P ℚ)

/-- The counters of a device that look at every protocol. -/
def DmsInput.plainStat (dev : String) (ps : List P) : ProtoStat ℚ :=
  deviceStat g input.ratio dev (ProtoCounter.plainProtos (input.assessorData.snmpUtil o.assess)) ps

/-- The query that the arbiter makes of the data. -/
structure Queried (query : Option Query) : Prop where
  asks : ∀ dev meas, asksOf query dev = some meas ↔ Suspected o.assess input.assessorData dev ∧
    (∃ p, Abnormal o.assess input.assessorData p) ∧
    meas = ⟨measureProto, askedProtos (input.assessorData.snmpUtil o.assess)⟩
  conn : (∃ q, query = some q ∧ Asked (ch.conn.keys q.conn)) ↔
    UInt64.ofInt o.assess.tcpConn.fullConn ≤ counter input.assessorData.tcpConn "TCP_ESTABLISHED"

/-- With a speed for every device a pass comes to the two detections, on one query. -/
theorem detect_queried (hspeed : ∀ dev ∈ input.assessorData.bw, counter input.assessorData.nicSpeed dev ≠ 0) :
    ∃ query, Queried ch o input query ∧ detect g isUsable ch o input =
      (dmsFloodAttackDetect ch.flood o.pps o.cap (dmsProtoDiag g isUsable ch.diag query input.packet input.ratio
        input.listen input.tcpconn input.nicIP)).map fun fResponds => (fResponds,
          slowHttpDetection ch.slow (dmsConnDiag ch.slow ch.conn input.tcpconn query) o.tcpConn input.nicIP) := by
  obtain ⟨ind, hind, hasks, hestab, hstates⟩ := arbitrates ch.bw ch.arbiter hspeed
  refine ⟨(getQuery ch.arbiter ind).1, ⟨hasks, ?_⟩, ?_⟩
  · rw [← hestab]
    refine exists_congr fun q => and_congr_right fun hq => ⟨?_, fun hin => ?_⟩
    · rintro ⟨m, hm, hl2⟩
      have hin := (ch.conn.mem_keys q.conn).mp hm
      obtain rfl | rfl := hstates q m hq hin
      · exact hin
      · exact absurd hl2 (by decide)
    · exact ⟨_, (ch.conn.mem_keys q.conn).mpr hin, Or.inr (Or.inr rfl)⟩
  · rw [detect, hind, Option.bind_eq_bind, Option.bind_some]
    dsimp only
    rw [Option.bind_eq_bind, Option.map_eq_bind]
    rfl

/-- A pass ends, and says the same whatever the orders in which the maps are ranged over: a flood is told of a device
exactly if too much comes in on it, its protocol is counted, and the packets of the device flood; and slow connections
are looked for exactly if there are too many established ones. -/
theorem detect_alarms (hg : ProtoCounter.Gopacket.GivesSources g fun s => ∃ a, s = uitoa a)
    (hspeed : ∀ dev ∈ input.assessorData.bw, counter input.assessorData.nicSpeed dev ≠ 0)
    (hratio : ∀ dev ∈ input.packet, ∃ r, input.ratio.lookup dev = some r ∧ 0 < r)
    (hth : 0 < o.pps.getPPSThreshold protoStrTcp true) :
    ∃ fResponds sRespond, detect g isUsable ch o input = some (fResponds, sRespond) ∧
      (∀ dev p, Alarmed fResponds dev p ↔
        Suspected o.assess input.assessorData dev ∧ Counted o.assess input.assessorData p ∧
          ∃ ps, input.packet.lookup dev = some ps ∧ Flooded o.pps (input.plainStat g o dev ps) p) ∧
      (sRespond.isSome = true ↔
        UInt64.ofInt o.assess.tcpConn.fullConn ≤ counter input.assessorData.tcpConn "TCP_ESTABLISHED" ∧
          o.tcpConn.fullConn ≤ ((input.tcpconn.map ConnInfo.flow).dedup).length) := by
  obtain ⟨query, hqueried, hdetect⟩ := detect_queried g isUsable ch o input hspeed
  have hcounted : ∀ p, selected (input.assessorData.snmpUtil o.assess) p = true ↔
      Counted o.assess input.assessorData p := by
    intro p
    cases p with
    | icmp => simp [selected, Counted, abnormal_icmp]
    | tcp => simp [selected, Counted, abnormal_icmp, abnormal_tcp]
    | udp => simp [selected, Counted, abnormal_icmp, abnormal_udp]
  have hslow := slow_isSome_iff ch.slow ch.conn input.tcpconn query o.tcpConn input.nicIP
  rw [hqueried.conn] at hslow
  have hflood : ∃ fResponds, dmsFloodAttackDetect ch.flood o.pps o.cap (dmsProtoDiag g isUsable ch.diag
      query input.packet input.ratio input.listen input.tcpconn input.nicIP) = some fResponds ∧
      ∀ dev p, Alarmed fResponds dev p ↔ Suspected o.assess input.assessorData dev ∧
        Counted o.assess input.assessorData p ∧
          ∃ ps, input.packet.lookup dev = some ps ∧ Flooded o.pps (input.plainStat g o dev ps) p := by
    cases query with
    | none =>
      refine ⟨[], rfl, fun dev p => iff_of_false ?_ ?_⟩
      · rintro ⟨_, hr, _⟩
        cases hr
      · rintro ⟨hsuspected, hcount, _⟩
        have hnone := (hqueried.asks dev _).mpr ⟨hsuspected, hcount.elim (fun h => ⟨_, h⟩) fun h => ⟨_, h⟩, rfl⟩
        cases hnone
    | some q =>
      obtain ⟨ct, pd, hdiag, hd⟩ := dmsProtoDiag_spec g isUsable ch.diag q input.packet input.ratio input.listen
        input.tcpconn input.nicIP
      have hsampled : ∀ dev stat, pd.stat.lookup dev = some stat → stat.Sampled := by
        intro dev stat hstat
        obtain ⟨m, ps, _, _, hps, rfl⟩ := (hd.stat dev stat).mp hstat
        obtain ⟨r, hr, hpos⟩ := hratio dev (GoMap.mem_iff_lookup.mpr ⟨ps, hps⟩)
        refine (ProtoCounter.run_protoStat_consistent hg _ ps _).sampled ?_
        change 0 < (input.ratio.lookup dev).getD _
        rw [hr]
        exact hpos
      obtain ⟨fResponds, hrun, halarmed⟩ := floodAttackDetection_alarmed ch.flood o.pps o.cap ct pd hsampled
      refine ⟨fResponds, by rw [hdiag]; exact hrun, fun dev p => (halarmed dev p).trans ?_⟩
      have hdp : ∀ meas, q.dp.lookup dev = some meas ↔ _ := hqueried.asks dev
      apply Iff.intro
      · rintro ⟨stat, hstat, hflooded⟩
        obtain ⟨m, ps, hm, _, hps, rfl⟩ := (hd.stat dev stat).mp hstat
        obtain ⟨hsuspected, _, rfl⟩ := (hdp m).mp hm
        obtain ⟨hsel, hplain⟩ := (flooded_asked hth input.ratio dev _ ps p).mp hflooded
        exact ⟨hsuspected, (hcounted p).mp hsel, ps, hps, hplain⟩
      · rintro ⟨hsuspected, hcount, ps, hps, hplain⟩
        have hsome : ∃ p, Abnormal o.assess input.assessorData p := hcount.elim (fun h => ⟨_, h⟩) fun h => ⟨_, h⟩
        have hm := (hdp _).mpr ⟨hsuspected, hsome, rfl⟩
        exact ⟨_, (hd.stat dev _).mpr ⟨_, ps, hm, askedProtos_iff.mp hsome, hps, rfl⟩,
          (flooded_asked hth input.ratio dev _ ps p).mpr ⟨(hcounted p).mpr hcount, hplain⟩⟩
  obtain ⟨fResponds, hrun, halarmed⟩ := hflood
  exact ⟨fResponds, _, by rw [hdetect, hrun]; rfl, halarmed, hslow⟩

end Pass

/-- Packets that are their own IPv4 header: whole ones, and of the transport layers none. -/
def echoPackets : Gopacket IPv4 Unit where
  ipv4 := some
  icmpv4Type packet := if packet.protocol = ipProtocolICMPv4 then packet.payload.head? else none
  trans _ _ := none
  newPacket payload _ := ⟨[], [], 0, [], payload⟩
  newDefragmenter := ()
  defragIPv4 header s := (.ok (some header), s)
  ipString ip := uitoa ((ntoui ip).getD 0)

/-- An echo request. -/
def echoRequest : IPv4 :=
  ⟨[10, 0, 0, 9], [10, 0, 0, 1], ipProtocolICMPv4, List.replicate 20 0, [8, 0, 247, 255, 0, 0, 0, 0]⟩

/-- Two echo requests in one second on a device on which as many are too many. -/
def pinged : DmsInput IPv4 ℚ where
  assessorData := ⟨10, AList.insert "eth0" (AList.insert "rx_packets" 1000 ∅) ∅, ∅, AList.insert "IcmpInMsgs" 2 ∅,
    AList.insert "eth0" 1000 ∅⟩
  listen := []
  packet := AList.insert "eth0" [echoRequest, echoRequest] ∅
  tcpconn := []
  ratio := AList.insert "eth0" 1 ∅
  nicIP := AList.insert "eth0" "10.0.0.1" ∅

def twoPackets : DmsOptions ℚ where
  assess := ⟨⟨20, 40, 80⟩, ⟨50, 1⟩, ⟨10, 10, 10⟩, ⟨2, ∅, 0⟩, 1⟩
  pps := ⟨2, ∅, 0⟩
  cap := ⟨2, 1⟩
  tcpConn := ⟨10, 10, 10⟩

def storedDms : DmsChoices Unit ℚ where
  bw := GoMap.Order.stored
  arbiter := ⟨GoMap.Order.stored, GoMap.Order.stored⟩
  diag := ⟨GoMap.Order.stored, GoMap.Order.stored⟩
  conn := GoMap.Order.stored
  flood := storedSchedule
  slow := lateChoices 0 ⟨"", 0, 0⟩

theorem pinged_speed : ∀ dev ∈ pinged.assessorData.bw, counter pinged.assessorData.nicSpeed dev ≠ 0 := by
  intro dev hdev
  obtain rfl | hdev := (AList.mem_insert _).mp hdev
  · decide
  · exact absurd hdev (AList.notMem_empty _)

theorem echoPackets_sources : ProtoCounter.Gopacket.GivesSources echoPackets fun s => ∃ a, s = uitoa a :=
  fun _ _ ip _ _ => ⟨(ntoui ip.srcIP).getD 0, rfl⟩

/-- The echo requests are told of as a flood of ICMP. -/
theorem detect_alarms_pinged : ∃ fResponds sRespond,
    detect echoPackets (fun _ => false) storedDms twoPackets pinged = some (fResponds, sRespond) ∧
      Alarmed fResponds "eth0" .icmp ∧ sRespond.isSome = false := by
  obtain ⟨fResponds, sRespond, hrun, halarms, hslow⟩ := detect_alarms echoPackets (fun _ => false) storedDms twoPackets
    pinged echoPackets_sources pinged_speed (by
      intro dev hdev
      obtain rfl | hdev := (AList.mem_insert _).mp hdev
      · exact ⟨1, by decide, by decide⟩
      · exact absurd hdev (AList.notMem_empty _)) (by decide +kernel)
  refine ⟨fResponds, sRespond, hrun, (halarms "eth0" .icmp).mpr ⟨?_, ?_, ?_⟩, ?_⟩
  · exact ⟨_, AList.lookup_insert _, Or.inr (by decide)⟩
  · exact Or.inl (Or.inr ⟨2, by decide, by decide +kernel⟩)
  · refine ⟨_, AList.lookup_insert _, 8, 2, by decide +kernel, ?_⟩
    unfold Floods
    decide +kernel
  · rw [Bool.eq_false_iff, Ne, hslow]
    exact fun h => absurd h.1 (by decide)

end Dni.Dms
