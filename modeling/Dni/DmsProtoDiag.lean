import Dni.DmsQuery
import Dni.ConnTracks
import Dni.CounterStats
import Dni.GenActions

namespace Dni.Dms

def protoString : List String := ["icmp", "tcp", "udp", "udplite", "nonipv4"]

def parseProtoIndicator (m : UInt8) : List String :=
  if m = pAll then ["all"]
  else (protoString.zipIdx.filter fun e =>
    let ind := (1 : UInt8) <<< UInt8.ofNat e.2
    m &&& ind = ind).map Prod.fst

/-- The address of a device that the table does not hold is the empty text. -/
def getAddr (nicName : String) (nicIP : GoMap String String) : String := (nicIP.lookup nicName).getD ""

section Listen

-- `isUsable` tells of a text whether `net.ParseIP` reads it and the address is no loopback one
variable (isUsable : String → Bool) (filter : GoMap String Unit)

/-- The port that a line says is listened on, with its protocol. -/
def listenPort (d : CtEntry) : Option (String × UInt16) :=
  let sip := d.field "SIP"
  if sip ≠ "0.0.0.0" ∧ sip ≠ "*" ∧ (isUsable sip = false ∨ sip ∉ filter) then none
  else if d.field "STATUS" = "LISTEN" ∨ d.field "STATUS" = "UNCONN" then
    let port := atoi (d.field "SPORT")
    if port.2 then some (d.field "PROTO", UInt16.ofInt port.1) else none
  else none

/-- One round of the loop over the lines. -/
def listenLine (ports : PortInfo × PortInfo) (d : CtEntry) : PortInfo × PortInfo :=
  match listenPort isUsable filter d with
  | none => ports
  | some (proto, port) =>
    if proto = "tcp" then (⟨ports.1.listen.insert port ()⟩, ports.2)
    else if proto = "udp" then (ports.1, ⟨ports.2.listen.insert port ()⟩)
    else ports

def getListenPort (data : List CtEntry) : PortInfo × PortInfo :=
  data.foldl (listenLine isUsable filter) (⟨∅⟩, ⟨∅⟩)

end Listen

def getCtInfoSS (conns : List ConnInfo) (filter : GoMap String Unit) : CtInfo :=
  conns.foldl (fun ct tcpconn => if tcpconn.src ∉ filter ∨ tcpconn.src = tcpconn.dst then ct
    else ⟨ct.est.insert tcpconn.dst ()⟩) ⟨∅⟩

/-- The orders in which the task ranges over its maps. -/
structure ProtoDiagOrders (S : Type) where
  dp : GoMap.Order String Measurement
  counters : GoMap.Order String (ProtoCounter S)

section Task

variable {P S F : Type} [FloatArith F] (g : Gopacket P S) (isUsable : String → Bool) (ord : ProtoDiagOrders S)

/-- A counter for every device that something is asked about. -/
def newCounters (query : Query) : GoMap String (ProtoCounter S) :=
  (ord.dp.run query.dp).foldl (fun counters e => if e.2.l2 = 0 then counters
    else counters.insert e.1 (ProtoCounter.new g (parseProtoIndicator e.2.l2))) ∅

/-- One round of the loop over the counters. -/
def countDevice (packets : GoMap String (List P)) (ratios : GoMap String F) (nicIP : GoMap String String)
    (s : GoMap String Unit × GoMap String (ProtoStat F)) (e : String × ProtoCounter S) :
    GoMap String Unit × GoMap String (ProtoStat F) :=
  match packets.lookup e.1 with
  | none => s
  | some ps =>
    (s.1.insert (getAddr e.1 nicIP) (), s.2.insert e.1
      ((ps.foldl (ProtoCounter.count g) e.2).protoStat ((ratios.lookup e.1).getD (FloatArith.ofInt 0))))

/-- `DmsProtoDiagTask.Process`: without a query both outputs are nil. -/
def dmsProtoDiag (query : Option Query) (packets : GoMap String (List P)) (ratios : GoMap String F)
    (listenInfos : List CtEntry) (conntracks : List ConnInfo) (nicIP : GoMap String String) :
    Option (CtInfo × ProtoDiag F) :=
  query.map fun query =>
    let (filter, stat) := (ord.counters.run (newCounters g ord query)).foldl
      (countDevice g packets ratios nicIP) (∅, ∅)
    let (tcp, udp) := getListenPort isUsable filter listenInfos
    (getCtInfoSS conntracks filter, ⟨tcp, udp, stat⟩)

end Task

section Tables

/-- A line that tells of a port on which the host waits, at one of the addresses that are looked at. -/
structure Listens (isUsable : String → Bool) (watched : String → Prop) (d : CtEntry) (proto : String) (port : UInt16) :
    Prop where
  address : d.field "SIP" = "0.0.0.0" ∨ d.field "SIP" = "*" ∨ isUsable (d.field "SIP") = true ∧ watched (d.field "SIP")
  status : d.field "STATUS" = "LISTEN" ∨ d.field "STATUS" = "UNCONN"
  proto : d.field "PROTO" = proto
  port : ∃ n, atoi (d.field "SPORT") = (n, true) ∧ UInt16.ofInt n = port

variable {isUsable : String → Bool} {filter : GoMap String Unit}

theorem listenPort_iff {d : CtEntry} {proto : String} {port : UInt16} :
    listenPort isUsable filter d = some (proto, port) ↔ Listens isUsable (· ∈ filter) d proto port := by
  unfold listenPort
  dsimp only
  split
  next haddress =>
    refine iff_of_false (by simp) fun h => ?_
    obtain ⟨hzero, hstar, hno⟩ := haddress
    obtain h | h | ⟨husable, hin⟩ := h.address
    · exact hzero h
    · exact hstar h
    · obtain hno | hno := hno
      · rw [hno] at husable
        cases husable
      · exact hno hin
  next haddress =>
    have hat : d.field "SIP" = "0.0.0.0" ∨ d.field "SIP" = "*" ∨
        isUsable (d.field "SIP") = true ∧ d.field "SIP" ∈ filter := by
      cases husable : isUsable (d.field "SIP") <;> simp only [husable] at haddress <;> tauto
    split
    next hstatus =>
      cases hread : atoi (d.field "SPORT") with
      | mk n ok =>
        cases ok with
        | false =>
          refine iff_of_false (by simp) fun h => ?_
          obtain ⟨_, hport, _⟩ := h.port
          rw [hread] at hport
          cases hport
        | true =>
          simp only [if_true, Option.some.injEq, Prod.mk.injEq]
          apply Iff.intro
          · intro h
            exact ⟨hat, hstatus, h.1, n, hread, h.2⟩
          · intro h
            obtain ⟨_, hport, heq⟩ := h.port
            rw [hread] at hport
            cases hport
            exact ⟨h.proto, heq⟩
    next hstatus => exact iff_of_false (by simp) fun h => hstatus h.status

theorem mem_insert_iff {κ ν : Type} [DecidableEq κ] {m : GoMap κ ν} {k k' : κ} {v : ν} :
    k ∈ m.insert k' v ↔ k ∈ m ∨ k' = k := by
  rw [AList.mem_insert, or_comm, eq_comm]

theorem mem_foldl_listen (data : List CtEntry) (ports : PortInfo × PortInfo) (p : UInt16) :
    (p ∈ (data.foldl (listenLine isUsable filter) ports).1.listen ↔
      p ∈ ports.1.listen ∨ ∃ d ∈ data, Listens isUsable (· ∈ filter) d "tcp" p) ∧
    (p ∈ (data.foldl (listenLine isUsable filter) ports).2.listen ↔
      p ∈ ports.2.listen ∨ ∃ d ∈ data, Listens isUsable (· ∈ filter) d "udp" p) := by
  induction data generalizing ports with
  | nil => simp
  | cons d data ih =>
    have hstep : (p ∈ (listenLine isUsable filter ports d).1.listen ↔
          p ∈ ports.1.listen ∨ Listens isUsable (· ∈ filter) d "tcp" p) ∧
        (p ∈ (listenLine isUsable filter ports d).2.listen ↔
          p ∈ ports.2.listen ∨ Listens isUsable (· ∈ filter) d "udp" p) := by
      rw [← listenPort_iff, ← listenPort_iff, listenLine]
      cases hport : listenPort isUsable filter d with
      | none => simp
      | some e =>
        obtain ⟨proto, port⟩ := e
        by_cases htcp : proto = "tcp"
        · subst htcp
          simp [or_comm, eq_comm]
        · by_cases hudp : proto = "udp"
          · subst hudp
            simp [or_comm, eq_comm]
          · simp [htcp, hudp]
    obtain ⟨htcp, hudp⟩ := ih (listenLine isUsable filter ports d)
    rw [List.foldl_cons, htcp, hudp, hstep.1, hstep.2, List.exists_mem_cons_iff, List.exists_mem_cons_iff, or_assoc,
      or_assoc]
    exact ⟨Iff.rfl, Iff.rfl⟩

/-- The other end of a connection of an address that is looked at. -/
theorem mem_getCtInfoSS {conns : List ConnInfo} {ip : String} : ip ∈ (getCtInfoSS conns filter).est ↔
    ∃ c ∈ conns, c.src ∈ filter ∧ c.src ≠ c.dst ∧ c.dst = ip := by
  have hfold : ∀ (ct : CtInfo), ip ∈ (conns.foldl (fun ct tcpconn => if tcpconn.src ∉ filter ∨ tcpconn.src = tcpconn.dst
      then ct else ⟨ct.est.insert tcpconn.dst ()⟩) ct).est ↔
      ip ∈ ct.est ∨ ∃ c ∈ conns, c.src ∈ filter ∧ c.src ≠ c.dst ∧ c.dst = ip := by
    induction conns with
    | nil => simp
    | cons c conns ih =>
      intro ct
      rw [List.foldl_cons, ih, List.exists_mem_cons_iff, ← or_assoc]
      apply or_congr_left
      split
      next h => exact (or_iff_left (by tauto)).symm
      next h =>
        rw [mem_insert_iff]
        tauto
  refine (hfold ⟨∅⟩).trans (or_iff_right (AList.notMem_empty _))

end Tables

section Stats

variable {P S F : Type} [FloatArith F] {g : Gopacket P S} {ord : ProtoDiagOrders S} {query : Query}

theorem lookup_newCounters {dev : String} {c : ProtoCounter S} : (newCounters g ord query).lookup dev = some c ↔
    ∃ m, query.dp.lookup dev = some m ∧ m.l2 ≠ 0 ∧ c = ProtoCounter.new g (parseProtoIndicator m.l2) := by
  have hfilter : newCounters g ord query = ((ord.dp.run query.dp).filter fun e => e.2.l2 ≠ 0).foldl
      (fun counters e => counters.insert e.1 (ProtoCounter.new g (parseProtoIndicator e.2.l2))) ∅ := by
    rw [newCounters, List.foldl_filter]
    simp only [decide_not, Bool.not_eq_true', decide_eq_false_iff_not, ite_not]
  have hsame : ∀ x ∈ (ord.dp.run query.dp).filter fun e => e.2.l2 ≠ 0,
      ∀ y ∈ (ord.dp.run query.dp).filter fun e => e.2.l2 ≠ 0, x.1 = y.1 →
        ProtoCounter.new g (parseProtoIndicator x.2.l2) = ProtoCounter.new g (parseProtoIndicator y.2.l2) := by
    rintro ⟨dev, m⟩ hx ⟨dev', m'⟩ hy heq
    have hm := ord.dp.mem_run.mp (List.mem_of_mem_filter hx)
    have hm' := ord.dp.mem_run.mp (List.mem_of_mem_filter hy)
    dsimp only at heq
    subst heq
    rw [Option.some.inj (hm.symm.trans hm')]
  rw [hfilter, GoMap.lookup_foldl_insert hsame]
  simp only [AList.lookup_empty, reduceCtorEq, and_false, or_false, List.mem_filter, decide_eq_true_eq, Prod.exists,
    GoMap.Order.mem_run]
  apply Iff.intro
  · rintro ⟨_, m, ⟨hm, hne⟩, rfl, hc⟩
    exact ⟨m, hm, hne, hc.symm⟩
  · rintro ⟨m, hm, hne, hc⟩
    exact ⟨dev, m, ⟨hm, hne⟩, rfl, hc.symm⟩

variable {packets : GoMap String (List P)} {ratios : GoMap String F} {nicIP : GoMap String String}

/-- The statistics that the packets of a device give under a list of protocols. -/
def deviceStat (g : Gopacket P S) (ratios : GoMap String F) (dev : String) (protos : List String) (ps : List P) :
    ProtoStat F :=
  (ProtoCounter.run g protos ps).protoStat ((ratios.lookup dev).getD (FloatArith.ofInt 0))

/-- A device is watched where it was asked about and packets of it came. -/
def watched (query : Query) (packets : GoMap String (List P)) (nicIP : GoMap String String) (addr : String) : Prop :=
  ∃ dev m ps, query.dp.lookup dev = some m ∧ m.l2 ≠ 0 ∧ packets.lookup dev = some ps ∧ getAddr dev nicIP = addr

/-- What the loop over the counters leaves in its two maps. -/
theorem foldl_countDevice (g : Gopacket P S) (packets : GoMap String (List P)) (ratios : GoMap String F)
    (nicIP : GoMap String String) {es : List (String × ProtoCounter S)} (hkeys : (es.map Prod.fst).Nodup)
    (s : GoMap String Unit × GoMap String (ProtoStat F)) :
    (∀ addr, addr ∈ (es.foldl (countDevice g packets ratios nicIP) s).1 ↔
      addr ∈ s.1 ∨ ∃ e ∈ es, (packets.lookup e.1).isSome = true ∧ getAddr e.1 nicIP = addr) ∧
    ∀ dev stat, (es.foldl (countDevice g packets ratios nicIP) s).2.lookup dev = some stat ↔
      (∃ c ps, (dev, c) ∈ es ∧ packets.lookup dev = some ps ∧
        stat = (ps.foldl (ProtoCounter.count g) c).protoStat ((ratios.lookup dev).getD (FloatArith.ofInt 0))) ∨
      (∀ c, (dev, c) ∈ es → packets.lookup dev = none) ∧ s.2.lookup dev = some stat := by
  induction es generalizing s with
  | nil => simp
  | cons e es ih =>
    obtain ⟨dev, c⟩ := e
    obtain ⟨hnew, hkeys⟩ := List.nodup_cons.mp hkeys
    have hother : ∀ c', (dev, c') ∉ es := fun c' hin => hnew (List.mem_map.mpr ⟨_, hin, rfl⟩)
    obtain ⟨haddr, hstat⟩ := ih hkeys (countDevice g packets ratios nicIP s (dev, c))
    rw [List.foldl_cons]
    cases hps : packets.lookup dev with
    | none =>
      have hskip : countDevice g packets ratios nicIP s (dev, c) = s := by rw [countDevice, hps]
      rw [hskip] at haddr hstat ⊢
      refine ⟨fun addr => ?_, fun dev' stat => ?_⟩
      · rw [haddr, List.exists_mem_cons_iff]
        simp [hps]
      · rw [hstat]
        by_cases heq : dev' = dev
        · subst heq
          simp [hps]
        · simp [heq]
    | some ps =>
      have hput : countDevice g packets ratios nicIP s (dev, c) = (s.1.insert (getAddr dev nicIP) (), s.2.insert dev
          ((ps.foldl (ProtoCounter.count g) c).protoStat ((ratios.lookup dev).getD (FloatArith.ofInt 0)))) := by
        rw [countDevice, hps]
      rw [hput] at haddr hstat ⊢
      refine ⟨fun addr => ?_, fun dev' stat => ?_⟩
      · rw [haddr, mem_insert_iff, List.exists_mem_cons_iff]
        simp [hps, or_assoc]
      · rw [hstat, GoMap.lookup_insert_if]
        by_cases heq : dev' = dev
        · subst heq
          simp [hps, hother, eq_comm]
        · simp [heq]

/-- What is given to the flood detection of a query: the statistics of the devices that are asked about and of which
packets came, the peers of their addresses, and the ports on which they wait. -/
structure Diagnosed (g : Gopacket P S) (isUsable : String → Bool) (query : Query) (packets : GoMap String (List P))
    (ratios : GoMap String F) (listenInfos : List CtEntry) (conntracks : List ConnInfo) (nicIP : GoMap String String)
    (ct : CtInfo) (pd : ProtoDiag F) : Prop where
  stat : ∀ dev stat, pd.stat.lookup dev = some stat ↔ ∃ m ps, query.dp.lookup dev = some m ∧ m.l2 ≠ 0 ∧
    packets.lookup dev = some ps ∧ stat = deviceStat g ratios dev (parseProtoIndicator m.l2) ps
  est : ∀ ip, ip ∈ ct.est ↔ ∃ c ∈ conntracks, watched query packets nicIP c.src ∧ c.src ≠ c.dst ∧ c.dst = ip
  tcp : ∀ p, p ∈ pd.tcp.listen ↔ ∃ d ∈ listenInfos, Listens isUsable (watched query packets nicIP) d "tcp" p
  udp : ∀ p, p ∈ pd.udp.listen ↔ ∃ d ∈ listenInfos, Listens isUsable (watched query packets nicIP) d "udp" p

theorem dmsProtoDiag_spec (g : Gopacket P S) (isUsable : String → Bool) (ord : ProtoDiagOrders S) (query : Query)
    (packets : GoMap String (List P)) (ratios : GoMap String F) (listenInfos : List CtEntry)
    (conntracks : List ConnInfo) (nicIP : GoMap String String) :
    ∃ ct pd, dmsProtoDiag g isUsable ord (some query) packets ratios listenInfos conntracks nicIP = some (ct, pd) ∧
      Diagnosed g isUsable query packets ratios listenInfos conntracks nicIP ct pd := by
  obtain ⟨haddr, hstat⟩ := foldl_countDevice g packets ratios nicIP
    (ord.counters.keys_nodup (newCounters g ord query)) (∅, ∅)
  refine ⟨_, _, rfl, ?_⟩
  generalize (ord.counters.run (newCounters g ord query)).foldl (countDevice g packets ratios nicIP) (∅, ∅) = s
    at haddr hstat ⊢
  have hwatched : ∀ addr, addr ∈ s.1 ↔ watched query packets nicIP addr := by
    intro addr
    rw [haddr]
    simp only [AList.notMem_empty, false_or, Prod.exists, GoMap.Order.mem_run, lookup_newCounters, watched,
      Option.isSome_iff_exists]
    apply Iff.intro
    · rintro ⟨dev, _, ⟨m, hm, hne, _⟩, ⟨ps, hps⟩, heq⟩
      exact ⟨dev, m, ps, hm, hne, hps, heq⟩
    · rintro ⟨dev, m, ps, hm, hne, hps, heq⟩
      exact ⟨dev, _, ⟨m, hm, hne, rfl⟩, ⟨ps, hps⟩, heq⟩
  have hsame : (· ∈ s.1) = watched query packets nicIP := funext fun addr => propext (hwatched addr)
  refine ⟨fun dev stat => ?_, fun ip => ?_, fun p => ?_, fun p => ?_⟩
  · rw [hstat]
    simp only [AList.lookup_empty, reduceCtorEq, and_false, or_false, GoMap.Order.mem_run, lookup_newCounters]
    apply Iff.intro
    · rintro ⟨_, ps, ⟨m, hm, hne, rfl⟩, hps, heq⟩
      exact ⟨m, ps, hm, hne, hps, heq⟩
    · rintro ⟨m, ps, hm, hne, hps, heq⟩
      exact ⟨_, ps, ⟨m, hm, hne, rfl⟩, hps, heq⟩
  · rw [mem_getCtInfoSS]
    simp only [hwatched]
  · rw [← hsame]
    exact (mem_foldl_listen listenInfos (⟨∅⟩, ⟨∅⟩) p).1.trans (or_iff_right (AList.notMem_empty _))
  · rw [← hsame]
    exact (mem_foldl_listen listenInfos (⟨∅⟩, ⟨∅⟩) p).2.trans (or_iff_right (AList.notMem_empty _))

end Stats

end Dni.Dms
