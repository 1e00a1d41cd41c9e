import Dni.SipDedupSides
import Dni.SipDedupRandom

namespace Dni

open GoMap

/-- The labels of a group for the ports and the length. -/
structure FeatureLabels where
  sport : String
  dport : String
  length : String

namespace FeatureLabels

/-- The rule of a packet under the labels of its group. -/
def tuple (l : FeatureLabels) (source : Option Prefix) (p : Cpp.Packet) : FiveTuple where
  source := source
  dip := p.dip
  sport := ruleText l.sport p.sport
  dport := ruleText l.dport p.dport
  proto := p.protocol
  length := ruleText l.length p.length

/-- The packet has the same texts under both labels. -/
structure SameTexts (l l' : FeatureLabels) (p : Cpp.Packet) : Prop where
  sport : ruleText l.sport p.sport = ruleText l'.sport p.sport
  dport : ruleText l.dport p.dport = ruleText l'.dport p.dport
  length : ruleText l.length p.length = ruleText l'.length p.length

theorem tuple_eq_iff {l l' : FeatureLabels} {source : Option Prefix} {p : Cpp.Packet} :
    l.tuple source p = l'.tuple source p ↔ l.SameTexts l' p := by
  simp only [tuple, FiveTuple.mk.injEq, true_and]
  apply Iff.intro
  · intro ⟨hs, hd, hl⟩
    exact ⟨hs, hd, hl⟩
  · intro ⟨hs, hd, hl⟩
    exact ⟨hs, hd, hl⟩

end FeatureLabels

namespace DedupInput

variable (x : DedupInput)

/-- The first network that has the source of the packet. -/
def source (p : Cpp.Packet) : Option Prefix := x.networks.find? fun n => n.Has p.sip

/-- The packets that the labels of a group are taken from, on both sides. -/
def population : Option Prefix → List Cpp.Packet
  | some n => x.packets.filter fun p => x.source p = some n
  | none => x.packets.filter fun p => p.sip ∈ x.randomIPs

/-- The C++ labels: from the number of different values, and the ratios of it. -/
def cppLabels (group : Option Prefix) : FeatureLabels where
  sport := x.task.labelOf ((x.population group).map Cpp.Packet.sport)
  dport := x.task.labelOf ((x.population group).map Cpp.Packet.dport)
  length := x.task.labelOf ((x.population group).map Cpp.Packet.length)

/-- The Go labels: from the number of packets, and the whole parts of the ratios of it. -/
def goLabels (group : Option Prefix) : FeatureLabels where
  sport := x.task.go.numStats.labelOf ((x.population group).map Cpp.Packet.sport)
  dport := x.task.go.numStats.labelOf ((x.population group).map Cpp.Packet.dport)
  length := x.task.go.numStats.labelOf ((x.population group).map Cpp.Packet.length)

def cppResult : Cpp.AttackerIPMergeResult := ⟨x.networks.map Prefix.cpp, x.isRand, x.randomIPs⟩

def goResult : AttackerIPMergeResult := ⟨x.networks.map Prefix.go, x.isRand, x.histogram⟩

/-- The rules that the C++ task writes. -/
def CppRule (o : Cpp.DedupOrders) (rule : RuleStat) : Prop :=
  ∃ k, (x.task.rules o x.packets x.cppResult x.hostNic).lookup k = some rule

/-- The rules that the Go task writes when it does not panic. -/
def GoRule (o : SipDedupOrders) (rule : RuleStat) : Prop :=
  ∃ out, SndSIPBaseMergeDedupTask.process x.task.go o x.hostNic (x.packets.map Cpp.Packet.info) x.goResult =
    some out ∧ ∃ k, out.2.lookup k = some rule

/-- Both tasks write rules for the same five-tuples, each in its own spelling, and no others. -/
structure Agree (o : Cpp.DedupOrders) (o' : SipDedupOrders) : Prop where
  cpp : ∀ rule, x.CppRule o rule → ∃ e : FiveTuple, rule = e.cpp x.hostNic
  go : ∀ rule, x.GoRule o' rule → ∃ e : FiveTuple, rule = e.go x.hostNic
  same : ∀ e : FiveTuple, x.CppRule o (e.cpp x.hostNic) ↔ x.GoRule o' (e.go x.hostNic)

theorem source_iff (p : Cpp.Packet) :
    (x.cppResult.attackerIPs.find? fun c => Cpp.belongs c p.sip) = (x.source p).map Prefix.cpp ∧
      (x.goResult.attackerIPNets.find? fun n => n.contains (uiton p.sip)) = (x.source p).map Prefix.go := by
  have hcpp : ∀ n : Prefix, Cpp.belongs n.cpp p.sip = decide (n.Has p.sip) := by
    intro n
    rw [Bool.eq_iff_iff, n.belongs_iff, decide_eq_true_eq]
  have hgo : ∀ n : Prefix, n.go.contains (uiton p.sip) = decide (n.Has p.sip) := by
    intro n
    rw [Bool.eq_iff_iff, n.contains_iff, decide_eq_true_eq]
  simp only [cppResult, goResult, List.find?_map, Function.comp_def, hcpp, hgo, source, and_self]

theorem covered_iff (p : Cpp.Packet) : Cpp.Covered x.cppResult.attackerIPs p ↔ ∃ n, x.source p = some n := by
  have hfind := (x.source_iff p).1
  rw [Cpp.Covered, ← List.find?_isSome, hfind, Option.isSome_map, Option.isSome_iff_exists]

theorem groupKey_eq (p : Cpp.Packet) : Cpp.groupKey x.cppResult.attackerIPs p =
    match x.source p with
    | some n => Cpp.cidrString n.cpp
    | none => "RANDOM" := by
  rw [Cpp.groupKey, (x.source_iff p).1]
  cases x.source p <;> rfl

theorem mem_sourcesOf (p : Cpp.Packet) (key : String) :
    key ∈ sourcesOf x.goResult.attackerIPNets x.goResult.isRand x.goResult.randIPCountDF p.info ↔
      (∃ n, x.source p = some n ∧ key = n.go.text) ∨
        (x.isRand = true ∧ p.sip ∈ x.randomIPs) ∧ key = "random" := by
  have hfind := (x.source_iff p).2
  have hsip := p.info_fields.1
  have hmem := x.mem_histogram p.sip
  rw [sourcesOf, hsip, hfind]
  simp only [goResult, hmem, List.mem_append, Option.mem_toList, Option.map_map, Option.map_eq_some_iff,
    Function.comp_apply]
  refine or_congr ?_ ?_
  · apply exists_congr
    intro n
    rw [eq_comm (a := key)]
  · split
    next h => simp [h]
    next h => simp [h]

theorem groupKey_eq_cppKey (p : Cpp.Packet) : Cpp.groupKey x.cppResult.attackerIPs p = cppKey (x.source p) := by
  rw [groupKey_eq]
  cases x.source p <;> rfl

/-- The groups that the two codes write a packet's rule under. -/
def CppGroup (p : Cpp.Packet) (g : Option Prefix) : Prop := x.source p = g ∧ (g = none → x.isRand = true)

def GoGroup (p : Cpp.Packet) : Option Prefix → Prop
  | some n => x.source p = some n
  | none => x.isRand = true ∧ p.sip ∈ x.randomIPs

theorem cppPopulation_eq (g : Option Prefix) :
    Cpp.SndSIPBaseMergeDeDupTask.population x.packets x.cppResult (cppKey g) = x.population g := by
  cases g with
  | none => rfl
  | some n =>
    have hne : cppKey (some n) ≠ "RANDOM" := Cpp.cidrString_ne_random n.cpp
    rw [Cpp.SndSIPBaseMergeDeDupTask.population, if_neg hne, population]
    apply List.filter_congr
    intro p _
    rw [decide_eq_decide, groupKey_eq_cppKey]
    apply Iff.intro
    · exact cppKey_inj
    · intro h
      rw [h]

theorem cppRule_iff (o : Cpp.DedupOrders) (rule : RuleStat) : x.CppRule o rule ↔
    ∃ p ∈ x.packets, ∃ g, x.CppGroup p g ∧ rule = ((x.cppLabels g).tuple g p).cpp x.hostNic := by
  have hrule : ∀ (g : Option Prefix) (p : Cpp.Packet) (stat : Cpp.SIPBaseMergeStats),
      (x.task.allStat o x.packets x.cppResult x.hostNic).lookup (cppKey g) = some stat →
      Cpp.ruleStat (cppKey g) stat p = ((x.cppLabels g).tuple g p).cpp x.hostNic := by
    intro g p stat hstat
    have hlabels := x.task.labelled_of_lookup o x.packets x.cppResult x.hostNic hstat
    have hsport := hlabels.srcPort
    have hdport := hlabels.dstPort
    have hlength := hlabels.length
    rw [cppPopulation_eq] at hsport hdport hlength
    rw [Cpp.ruleStat, hlabels.hostNicSign, hsport, hdport, hlength]
    cases g <;> rfl
  rw [CppRule, x.task.exists_rules o x.packets x.cppResult x.hostNic]
  apply Iff.intro
  · intro h
    rcases h with ⟨key, stat, hstat, p, hp, hkey, hr⟩
    rw [groupKey_eq_cppKey] at hkey
    subst hkey
    refine ⟨p, hp, x.source p, ⟨rfl, ?_⟩, hr.symm.trans (hrule _ p stat hstat)⟩
    intro hnone
    rw [hnone] at hstat
    exact (x.task.exists_random_stat o x.packets x.cppResult x.hostNic).mp ⟨stat, hstat⟩
  · intro h
    rcases h with ⟨p, hp, g, ⟨hsource, hflag⟩, hr⟩
    have hexists : ∃ stat, (x.task.allStat o x.packets x.cppResult x.hostNic).lookup (cppKey g) = some stat := by
      rw [Cpp.SndSIPBaseMergeDeDupTask.exists_allStat]
      cases g with
      | none => exact Or.inr ⟨hflag rfl, rfl⟩
      | some n =>
        exact Or.inl ⟨p, hp, (x.covered_iff p).mpr ⟨n, hsource⟩, (x.groupKey_eq_cppKey p).trans (by rw [hsource])⟩
    obtain ⟨stat, hstat⟩ := hexists
    exact ⟨cppKey g, stat, hstat, p, hp, (x.groupKey_eq_cppKey p).trans (by rw [hsource]),
      (hrule g p stat hstat).trans hr.symm⟩

theorem mem_sourcesOf_iff (p : Cpp.Packet) (key : String) :
    key ∈ sourcesOf x.goResult.attackerIPNets x.goResult.isRand x.goResult.randIPCountDF p.info ↔
      ∃ g, x.GoGroup p g ∧ key = goKey g := by
  rw [mem_sourcesOf, Option.exists]
  exact or_comm

theorem groupInfos_eq {p : Cpp.Packet} {g : Option Prefix} (hg : x.GoGroup p g) :
    SndSIPBaseMergeDedupTask.groupInfos x.goResult.attackerIPNets x.goResult.isRand x.goResult.randIPCountDF
      (x.packets.map Cpp.Packet.info) (goKey g) = (x.population g).map Cpp.Packet.info := by
  have hgroup : ∀ q, (goKey g ∈ sourcesOf x.goResult.attackerIPNets x.goResult.isRand x.goResult.randIPCountDF
      q.info) ↔ x.GoGroup q g := by
    intro q
    rw [mem_sourcesOf_iff]
    apply Iff.intro
    · intro ⟨g', hg', hkey⟩
      exact goKey_inj hkey ▸ hg'
    · intro h
      exact ⟨g, h, rfl⟩
  rw [SndSIPBaseMergeDedupTask.groupInfos, List.filter_map]
  congr 1
  cases g with
  | none =>
    apply List.filter_congr
    intro q _
    rw [Function.comp_apply, decide_eq_decide, hgroup]
    exact and_iff_right hg.1
  | some n =>
    apply List.filter_congr
    intro q _
    rw [Function.comp_apply, decide_eq_decide, hgroup]
    exact Iff.rfl

theorem goRule_iff (o : SipDedupOrders) (rule : RuleStat) : x.GoRule o rule ↔
    ∃ p ∈ x.packets, ∃ g, x.GoGroup p g ∧ rule = ((x.goLabels g).tuple g p).go x.hostNic := by
  have hrule : ∀ (p : Cpp.Packet) (g : Option Prefix), x.GoGroup p g →
      (SndSIPBaseMergeDedupTask.groupStat x.task.go x.hostNic x.goResult.attackerIPNets x.goResult.isRand
        x.goResult.randIPCountDF (x.packets.map Cpp.Packet.info) (goKey g)).fiveTuple p.info =
          ((x.goLabels g).tuple g p).go x.hostNic := by
    intro p g hg
    obtain ⟨_, hsport, hdport, hproto, hlength, hdip⟩ := p.info_fields
    have hfields : ∀ q : Cpp.Packet, q.info.field "SPort" = q.sport ∧ q.info.field "DPort" = q.dport ∧
        q.info.field "Length" = q.length := by
      intro q
      obtain ⟨_, hs, hd, _, hl, _⟩ := q.info_fields
      exact ⟨hs, hd, hl⟩
    rw [LabelledStat.fiveTuple, hsport, hdport, hproto, hlength, hdip]
    simp only [SndSIPBaseMergeDedupTask.groupStat, x.groupInfos_eq hg, List.map_map, Function.comp_def, hfields]
    cases g <;> rfl
  obtain ⟨out, hout, hrules⟩ := SndSIPBaseMergeDedupTask.process_rules o x.hostNic
    (x.packets.map Cpp.Packet.info) (t := x.task.go) (r := x.goResult) (by simp [Cpp.SndSIPBaseMergeDeDupTask.go])
    (by simp [Cpp.SndSIPBaseMergeDeDupTask.go])
  have hgo : x.GoRule o rule ↔ ∃ k, out.2.lookup k = some rule := by
    apply Iff.intro
    · intro h
      rcases h with ⟨out', hout', h⟩
      cases hout.symm.trans hout'
      exact h
    · intro h
      exact ⟨out, hout, h⟩
  rw [hgo, hrules]
  simp only [List.mem_map, exists_exists_and_eq_and, mem_sourcesOf_iff]
  apply exists_congr
  intro p
  apply and_congr_right
  intro _
  apply Iff.intro
  · intro h
    rcases h with ⟨key, ⟨g, hg, hkey⟩, hr⟩
    subst hkey
    exact ⟨g, hg, hr.symm.trans (hrule p g hg)⟩
  · intro h
    rcases h with ⟨g, hg, hr⟩
    exact ⟨goKey g, ⟨g, hg, rfl⟩, (hrule p g hg).trans hr.symm⟩

end DedupInput

end Dni
