import Dni.SlowExact

namespace Dni.Dms

open SortSearch

theorem exists_mem_insert {κ ν : Type} [DecidableEq κ] (m : GoMap κ ν) (k : κ) (v : ν) :
    ∃ x, x ∈ m.insert k v := ⟨k, AList.mem_insert m |>.mpr (Or.inl rfl)⟩

theorem connStates_nonempty (msmt : List Measurement) :
    (∃ k, k ∈ connStates msmt) ↔ Asked msmt := by
  have hfold : ∀ states : GoMap String UInt8, (∃ k, k ∈ msmt.foldl (fun states m =>
      let states := if m.l2 = connAll ∨ m.l2 = connTcpSyn then states.insert "SEMI" tcpSynRecv
        else states
      if m.l2 = connAll ∨ m.l2 = connTcpEstablished then states.insert "ESTAB" tcpEstablished
      else states) states) ↔ (∃ k, k ∈ states) ∨ Asked msmt := by
    induction msmt with
    | nil => simp [Asked]
    | cons m msmt ih =>
      intro states
      have hcons : Asked (m :: msmt) ↔
          (m.l2 = connAll ∨ m.l2 = connTcpSyn ∨ m.l2 = connTcpEstablished) ∨ Asked msmt := by
        simp [Asked]
      rw [List.foldl_cons, ih, hcons, ← or_assoc]
      apply or_congr_left
      dsimp only
      by_cases he : m.l2 = connAll ∨ m.l2 = connTcpEstablished
      · rw [if_pos he]
        exact iff_of_true (exists_mem_insert _ _ _) (Or.inr (by tauto))
      · rw [if_neg he]
        by_cases hs : m.l2 = connAll ∨ m.l2 = connTcpSyn
        · rw [if_pos hs]
          exact iff_of_true (exists_mem_insert _ _ _) (Or.inr (by tauto))
        · rw [if_neg hs]
          tauto
  rw [connStates, hfold]
  simp

/-- The detection on the analyser's result. -/
def detectSlow (ch : SlowChoices) (msmt : List Measurement) (conns : List ConnInfo)
    (th : TcpConnUtilThreshold) (nicIP : GoMap String String) : Option SlowRespond :=
  slowHttpDetection ch (some (connAnalyser ch msmt conns)) th nicIP

/-- What the respond of a detection says, told from its steps. -/
structure Responds (nicIP : GoMap String String) (vs : List SlowVisit) (r : SlowRespond) : Prop where
  dev : r.dev = ((vs.getLast?).map fun v => lookupDev v.first.dst nicIP).getD ""
  type : .httpSlowRead ∈ r.type ↔ vs ≠ []
  rules : ∃ rs, r.pattern = some rs ∧ ∀ m, m ∈ rs.rules ↔ ∃ v ∈ vs, v.rule.toMatch = m

variable {msmt : List Measurement} {conns : List ConnInfo} {th : TcpConnUtilThreshold}
  {nicIP : GoMap String String}

/-- The ports in the order in which the detection goes through them. -/
def portFlows (ch : SlowChoices) (conns : List ConnInfo) : List FlowStat :=
  (groupByLport ch (flowsOf conns)).2

theorem detectSlow_eq (ch : SlowChoices) (hn : (conns.map ConnInfo.flow).Nodup) :
    detectSlow ch msmt conns th nicIP =
      if (connStates msmt).keys.length = 0 then none
      else if th.fullConn ≤ conns.length then
        some (diagFullConnAttack ch ⟨conns.length, portFlows ch conns, perPortOf conns⟩ th nicIP)
      else none := by
  have hcount := (groupByLport_spec ch hn).1
  rw [detectSlow, slowHttpDetection, Option.bind_some, connAnalyser, tcpConnAnalyser]
  by_cases hs : (connStates msmt).keys.length = 0
  · rw [if_pos hs, if_pos hs]
    rfl
  · rw [if_neg hs, if_neg hs, ← hcount]
    rfl

theorem connStates_length : (connStates msmt).keys.length = 0 ↔ ¬ Asked msmt := by
  rw [← connStates_nonempty, List.length_eq_zero_iff, List.eq_nil_iff_forall_not_mem, not_exists]
  rfl

theorem detectSlow_some (ch : SlowChoices) (hn : (conns.map ConnInfo.flow).Nodup)
    (hasked : Asked msmt) (hfull : th.fullConn ≤ conns.length) :
    ∃ r, detectSlow ch msmt conns th nicIP = some r ∧
      Responds nicIP (slowVisits ch (perPortOf conns) th.perPortFullConn (portFlows ch conns)) r := by
  have htold := @slowPorts_told nicIP ch (perPortOf conns) th.perPortFullConn (portFlows ch conns) {}
  refine ⟨diagFullConnAttack ch ⟨conns.length, portFlows ch conns, perPortOf conns⟩ th nicIP, ?_,
    htold.dev, ?_, _, rfl, ?_⟩
  · rw [detectSlow_eq ch hn, if_neg (mt connStates_length.mp (not_not_intro hasked)), if_pos hfull]
  · rw [diagFullConnAttack, htold.type]
    simp
  · intro m
    rw [htold.rules]
    simp [RuleSet.mem_new]

theorem detectSlow_none (ch : SlowChoices) (hn : (conns.map ConnInfo.flow).Nodup)
    (h : ¬ (Asked msmt ∧ th.fullConn ≤ conns.length)) : detectSlow ch msmt conns th nicIP = none := by
  rw [detectSlow_eq ch hn]
  split
  next => rfl
  next hs =>
    have hfull : ¬ th.fullConn ≤ conns.length :=
      fun hf => h ⟨not_not.mp (mt connStates_length.mpr hs), hf⟩
    rw [if_neg hfull]

/-- The respond attributes the attack to the remote host, the local port and the attacked device. -/
structure Attributed (nicIP : GoMap String String) (conns : List ConnInfo) (c : ConnInfo)
    (r : SlowRespond) : Prop where
  type : .httpSlowRead ∈ r.type
  rule : ∃ rs, r.pattern = some rs ∧
    ∃ m ∈ rs.rules, m.srcIP = c.dst ∧ m.dstPort = portString c.flow.lport
  dev : ∃ d ∈ localGroup conns c, nicIP.lookup r.dev = some d.src

/-- Every slow attack is told and attributed, and no other. -/
def SlowCorrect (ch : SlowChoices) (msmt : List Measurement) (conns : List ConnInfo)
    (th : TcpConnUtilThreshold) (nicIP : GoMap String String) : Prop :=
  (∀ c, Attacks th conns c →
      ∃ r, detectSlow ch msmt conns th nicIP = some r ∧ Attributed nicIP conns c r) ∧
    ∀ r, detectSlow ch msmt conns th nicIP = some r → .httpSlowRead ∈ r.type → ∃ c, Attacks th conns c

/-- The first of its group, at a port with the fewest connections of all ports of such groups. -/
structure LastJoined (msmt : List Measurement) (th : TcpConnUtilThreshold) (conns : List ConnInfo)
    (d : ConnInfo) : Prop extends Joined msmt th conns d where
  first : (remoteGroup conns d).head? = some d
  fewest : ∀ e, Joined msmt th conns e →
    localCount conns d.flow.rport ≤ localCount conns e.flow.rport

/-- The groups at the local ends, which are to be told, are groups at the remote ends, which are
looked at, and the table has the remote address as a device. -/
structure EndsAgree (msmt : List Measurement) (conns : List ConnInfo) (th : TcpConnUtilThreshold)
    (nicIP : GoMap String String) : Prop where
  seen : ∀ c, Attacks th conns c →
    ∃ d, Joined msmt th conns d ∧ d.src = c.dst ∧ d.flow.rport = c.flow.lport
  dev : ∀ c, Attacks th conns c → ∀ d, LastJoined msmt th conns d →
    ∃ e ∈ localGroup conns c, nicIP.lookup ((nicIP.lookup d.dst).getD "") = some e.src
  only : (∃ d, Joined msmt th conns d) → ∃ c, Attacks th conns c

end Dni.Dms
