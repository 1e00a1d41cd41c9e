import Dni.SipDedupWritten

namespace Dni

open GoMap

/-- A port or a length of a tuple: the number itself, or the label that stands for all numbers of the group. -/
inductive TupleField where
  | number (v : UInt32)
  | label (text : String)

def TupleField.of (label : String) (v : UInt32) : TupleField :=
  if label = "centralize" then .number v else .label label

def TupleField.text : TupleField → String
  | .number v => Nat.repr v.toNat
  | .label text => text

theorem TupleField.text_of (label : String) (v : UInt32) : (TupleField.of label v).text = ruleText label v := by
  unfold TupleField.of ruleText
  split <;> rfl

/-- Under one label the text of a field says which it is. -/
theorem TupleField.of_inj {label : String} {v w : UInt32} (h : ruleText label v = ruleText label w) :
    TupleField.of label v = TupleField.of label w := by
  unfold TupleField.of
  unfold ruleText at h
  split at h
  next hc => rw [if_pos hc, if_pos hc, repr_toNat_inj h]
  next hc => rw [if_neg hc, if_neg hc]

/-- A packet of a group as the group's statistics show it. -/
structure SourceTuple where
  group : String
  dip : UInt32
  sport : TupleField
  dport : TupleField
  proto : UInt32
  length : TupleField

/-- The value of an entry. -/
def SourceTuple.entry (hostNicSign : String) (e : SourceTuple) : RuleStat where
  sip := e.group
  dip := uitoa e.dip
  sport := e.sport.text
  dport := e.dport.text
  proto := Nat.repr e.proto.toNat
  hostNicSign := hostNicSign
  length := e.length.text

/-- The key that goes with a value. -/
def RuleStat.fiveTupleKey (rule : RuleStat) : String :=
  rule.sip ++ "-" ++ rule.dip ++ "-" ++ rule.sport ++ "-" ++ rule.dport ++ "-" ++ rule.proto ++ "-" ++ rule.length

namespace SndSIPBaseMergeDedupTask

variable {F : Type} [FloatArith F] (t : SndSIPBaseMergeDedupOptions F) (hostNicSign : String) (attakIPNets : List NetIPNet) (isRand : Bool)
  (ipCountDF4 : IPCount) (pinfos : List PacketInfo)

/-- The label of a feature of a group, from the values of its own packets. -/
def groupLabel (key feature : String) : String :=
  t.numStats.labelOf ((groupInfos attakIPNets isRand ipCountDF4 pinfos key).map (·.field feature))

def project (key : String) (info : PacketInfo) : SourceTuple where
  group := key
  dip := info.field "DIP"
  sport := .of (groupLabel t attakIPNets isRand ipCountDF4 pinfos key "SPort") (info.field "SPort")
  dport := .of (groupLabel t attakIPNets isRand ipCountDF4 pinfos key "DPort") (info.field "DPort")
  proto := info.field "Proto"
  length := .of (groupLabel t attakIPNets isRand ipCountDF4 pinfos key "Length") (info.field "Length")

/-- The tuples of the packets of all groups. -/
def Derived (e : SourceTuple) : Prop :=
  ∃ info ∈ pinfos, ∃ key ∈ sourcesOf attakIPNets isRand ipCountDF4 info,
    project t attakIPNets isRand ipCountDF4 pinfos key info = e

/-- The entries are the tuples, one for one. -/
structure EntriesExact (fiveTupleMap : GoMap String RuleStat) : Prop where
  entry : ∀ e, Derived t attakIPNets isRand ipCountDF4 pinfos e →
    ∃! k, fiveTupleMap.lookup k = some (e.entry hostNicSign)
  derived : ∀ k rule, fiveTupleMap.lookup k = some rule →
    ∃! e, Derived t attakIPNets isRand ipCountDF4 pinfos e ∧ e.entry hostNicSign = rule

variable {t hostNicSign attakIPNets isRand ipCountDF4 pinfos}

theorem entry_project (key : String) (info : PacketInfo) :
    (project t attakIPNets isRand ipCountDF4 pinfos key info).entry hostNicSign =
      (groupStat t hostNicSign attakIPNets isRand ipCountDF4 pinfos key).fiveTuple info := by
  simp only [SourceTuple.entry, project, TupleField.text_of]
  rfl

/-- The entry of a tuple says which tuple it is. -/
theorem entry_inj {e e' : SourceTuple} (h : Derived t attakIPNets isRand ipCountDF4 pinfos e)
    (h' : Derived t attakIPNets isRand ipCountDF4 pinfos e') (hentry : e.entry hostNicSign = e'.entry hostNicSign) :
    e = e' := by
  obtain ⟨info, _, key, _, he⟩ := h
  obtain ⟨info', _, key', _, he'⟩ := h'
  subst he he'
  simp only [SourceTuple.entry, project, TupleField.text_of, RuleStat.mk.injEq, true_and] at hentry
  obtain ⟨hkey, hdip, hsport, hdport, hproto, hlength⟩ := hentry
  subst hkey
  rw [project, project, uitoa_inj hdip, TupleField.of_inj hsport, TupleField.of_inj hdport, repr_toNat_inj hproto,
    TupleField.of_inj hlength]

theorem entries_exact {o : SipDedupOrders} {r : Dni.AttackerIPMergeResult}
    {out : GoMap String LabelledStat × GoMap String RuleStat} (h : process t o hostNicSign pinfos r = some out) :
    EntriesExact t hostNicSign r.attackerIPNets r.isRand r.randIPCountDF pinfos out.2 := by
  have hkey : ∀ {k : String} {rule : RuleStat}, out.2.lookup k = some rule → k = rule.fiveTupleKey := by
    intro k rule hk
    obtain ⟨info, _, key, _, hk, hrule⟩ := (lookup_rules o h).mp hk
    rw [← hk, ← hrule]
    rfl
  refine ⟨?_, ?_⟩
  · intro e ⟨info, hinfo, key, hsource, he⟩
    subst he
    rw [entry_project]
    generalize hstat : groupStat t hostNicSign r.attackerIPNets r.isRand r.randIPCountDF pinfos key = stat
    have hin : out.2.lookup (stat.fiveTupleKey info) = some (stat.fiveTuple info) :=
      (lookup_rules o h).mpr ⟨info, hinfo, key, hsource, by rw [hstat], by rw [hstat]⟩
    exact ⟨_, hin, fun k hk => (hkey hk).trans (hkey hin).symm⟩
  · intro k rule hk
    obtain ⟨info, hinfo, key, hsource, _, hrule⟩ := (lookup_rules o h).mp hk
    have hderived : Derived t r.attackerIPNets r.isRand r.randIPCountDF pinfos
        (project t r.attackerIPNets r.isRand r.randIPCountDF pinfos key info) := ⟨info, hinfo, key, hsource, rfl⟩
    refine ⟨_, ⟨hderived, (entry_project key info).trans hrule⟩, ?_⟩
    intro e ⟨he, hentry⟩
    exact entry_inj he hderived (hentry.trans (hrule.symm.trans (entry_project key info).symm))

/-- The output map has one entry for each tuple and no other; there is none only where a label is missing. -/
theorem five_tuples_exact {F : Type} [FloatArith F] (t : SndSIPBaseMergeDedupOptions F) (o : SipDedupOrders) (hostNicSign : String)
    (pinfos : List PacketInfo) (r : Dni.AttackerIPMergeResult) :
    match process t o hostNicSign pinfos r with
    | some out => EntriesExact t hostNicSign r.attackerIPNets r.isRand r.randIPCountDF pinfos out.2
    | none => t.numStats.labels.length < 4 ∨ t.protoStats.labels.length < 3 := by
  cases h : process t o hostNicSign pinfos r with
  | some out => exact entries_exact h
  | none =>
    by_contra hno
    rw [not_or, Nat.not_lt, Nat.not_lt] at hno
    obtain ⟨out, hout, _⟩ := process_rules o hostNicSign pinfos hno.1 hno.2 (r := r)
    exact absurd (h.symm.trans hout) (by simp)

end SndSIPBaseMergeDedupTask

end Dni
