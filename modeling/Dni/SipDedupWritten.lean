import Dni.SipDedupFacts
import Dni.SipDedupRules
import Dni.SipAttribution

namespace Dni

open GoMap Loops

theorem toDigits_inj {n m : Nat} (h : Nat.toDigits 10 n = Nat.toDigits 10 m) : n = m := by
  rw [← Nat.ofDigitChars_toDigits (b := 10) (n := n) (by omega) (by omega), h,
    Nat.ofDigitChars_toDigits (by omega) (by omega)]

theorem repr_toNat_inj {a b : UInt32} (h : Nat.repr a.toNat = Nat.repr b.toNat) : a = b := by
  rw [Nat.repr, Nat.repr, String.ofList_inj] at h
  exact UInt32.toNat_inj.mp (toDigits_inj h)

theorem not_dash_mem_dotted (ip : IP) : '-' ∉ dotted ip := by
  unfold dotted
  induction ip with
  | nil => exact List.not_mem_nil
  | cons b ip ih =>
    cases ip with
    | nil => simp [Cpp.not_dash_mem_digits]
    | cons c ip =>
      rw [List.map_cons] at ih
      rw [List.map_cons, List.map_cons, List.intercalate_cons_cons]
      simp [ih, Cpp.not_dash_mem_digits]

theorem not_dash_mem_maskHex (mask : IP) : '-' ∉ maskHex mask := by
  have hdigit : ∀ k < 16, '-' ≠ Nat.digitChar k := by decide
  intro h
  obtain ⟨b, _, hb⟩ := List.mem_flatMap.mp h
  have hlt := UInt8.toNat_lt b
  obtain hb | hb := List.mem_pair.mp hb
  · exact hdigit _ (by omega) hb
  · exact hdigit _ (by omega) hb

/-- No text of a network has the separator of the keys. -/
theorem NetIPNet.not_dash_mem_text (n : NetIPNet) : '-' ∉ n.text.toList := by
  unfold text
  cases hs : n.string with
  | none => decide +kernel
  | some s =>
    obtain ⟨ip, _, hs⟩ := Option.bind_eq_some_iff.mp hs
    dsimp only at hs
    split at hs <;> split at hs
    all_goals cases hs
    all_goals
      rw [Option.getD_some, String.toList_ofList]
      split <;> simp [not_dash_mem_dotted, not_dash_mem_maskHex, Cpp.not_dash_mem_digits]

theorem not_dash_mem_source {attakIPNets : List NetIPNet} {isRand : Bool} {ipCountDF4 : IPCount} {info : PacketInfo}
    {key : String} (h : key ∈ sourcesOf attakIPNets isRand ipCountDF4 info) : '-' ∉ key.toList := by
  obtain hnet | hrand := List.mem_append.mp h
  · obtain ⟨n, _, hn⟩ := Option.map_eq_some_iff.mp (Option.mem_toList.mp hnet)
    rw [← hn]
    exact n.not_dash_mem_text
  · split at hrand
    next =>
      rw [List.mem_singleton.mp hrand]
      decide +kernel
    next => exact absurd hrand List.not_mem_nil

theorem not_dash_mem_uitoa (a : UInt32) : '-' ∉ (uitoa a).toList := by
  rw [toList_uitoa]
  exact not_dash_mem_dotted _

theorem ruleText_match (label : String) (v w : UInt32) :
    Fields.Match '-' (ruleText label v).toList (ruleText label w).toList := Cpp.featureText_match label v w

namespace LabelledStat

theorem fiveTupleKey_toList (lab : LabelledStat) (info : PacketInfo) :
    (lab.fiveTupleKey info).toList = lab.stat.sip.toList ++ (['-'] ++ ['-'].intercalate
      [(uitoa (info.field "DIP")).toList, (ruleText lab.sport (info.field "SPort")).toList,
        (ruleText lab.dport (info.field "DPort")).toList, (Nat.repr (info.field "Proto").toNat).toList,
        (ruleText lab.length (info.field "Length")).toList]) := by
  have hsep : ("-" : String).toList = ['-'] := by decide +kernel
  simp only [fiveTupleKey, String.toList_append, hsep, List.intercalate_cons_cons,
    List.intercalate_singleton, List.append_assoc]

/-- Under one group's labels the key of a rule determines the rule. -/
theorem fiveTupleKey_inj {lab lab' : LabelledStat} {info info' : PacketInfo} (hf : '-' ∉ lab.stat.sip.toList)
    (hf' : '-' ∉ lab'.stat.sip.toList) (hsame : lab.stat.sip = lab'.stat.sip → lab = lab')
    (h : lab.fiveTupleKey info = lab'.fiveTupleKey info') : lab.fiveTuple info = lab'.fiveTuple info' := by
  have hlists := congrArg String.toList h
  rw [fiveTupleKey_toList, fiveTupleKey_toList] at hlists
  obtain ⟨hsip, hrest⟩ := Fields.append_inj (Or.inr ⟨hf, hf'⟩) hlists
  have hlab := hsame (String.toList_inj.mp hsip)
  subst hlab
  have hfields := Fields.intercalate_inj
    (.cons (Or.inr ⟨not_dash_mem_uitoa _, not_dash_mem_uitoa _⟩) (.cons (ruleText_match _ _ _)
      (.cons (ruleText_match _ _ _)
        (.cons (Or.inr ⟨Cpp.not_dash_mem_repr _, Cpp.not_dash_mem_repr _⟩)
          (.cons (ruleText_match _ _ _) .nil))))) hrest
  simp only [List.cons.injEq, String.toList_inj, and_true] at hfields
  obtain ⟨hdip, hsport, hdport, hproto, hlength⟩ := hfields
  rw [fiveTuple, fiveTuple, hdip, hsport, hdport, hproto, hlength]

/-- The loop over the indices as one over the packets that they stand for. -/
theorem dedup_packets (lab : LabelledStat) (pinfos : List PacketInfo) (m : GoMap String RuleStat) :
    lab.dedup pinfos m = (lab.stat.ipIdxs.filterMap (pinfos[·]?)).foldl
      (fun m info => m.insert (lab.fiveTupleKey info) (lab.fiveTuple info)) m := by
  unfold dedup
  induction lab.stat.ipIdxs generalizing m with
  | nil => rfl
  | cons i is ih =>
    rw [List.foldl_cons, ih, List.filterMap_cons]
    cases pinfos[i]? <;> rfl

end LabelledStat

namespace SndSIPBaseMergeDedupTask

variable {F : Type} [FloatArith F] (t : SndSIPBaseMergeDedupOptions F) (o : SipDedupOrders) (hostNicSign : String)
  (attakIPNets : List NetIPNet) (isRand : Bool) (ipCountDF4 : IPCount) (pinfos : List PacketInfo)

/-- The packets of a group. -/
def groupInfos (key : String) : List PacketInfo :=
  pinfos.filter fun info => key ∈ sourcesOf attakIPNets isRand ipCountDF4 info

/-- The name, the sign and the labels of a group, as its packets make them. -/
def groupStat (key : String) : LabelledStat where
  stat := { sip := key, hostNicSign := hostNicSign }
  sport := t.numStats.labelOf ((groupInfos attakIPNets isRand ipCountDF4 pinfos key).map (·.field "SPort"))
  dport := t.numStats.labelOf ((groupInfos attakIPNets isRand ipCountDF4 pinfos key).map (·.field "DPort"))
  length := t.numStats.labelOf ((groupInfos attakIPNets isRand ipCountDF4 pinfos key).map (·.field "Length"))
  proto := ∅

variable {t hostNicSign attakIPNets isRand ipCountDF4 pinfos}

theorem fiveTuple_groupStat {lab : LabelledStat} {key : String}
    (h : lab.Of t.numStats hostNicSign key (groupInfos attakIPNets isRand ipCountDF4 pinfos key))
    (info : PacketInfo) :
    lab.fiveTupleKey info =
        (groupStat t hostNicSign attakIPNets isRand ipCountDF4 pinfos key).fiveTupleKey info ∧
      lab.fiveTuple info = (groupStat t hostNicSign attakIPNets isRand ipCountDF4 pinfos key).fiveTuple info := by
  simp only [LabelledStat.fiveTupleKey, LabelledStat.fiveTuple, groupStat, h.sip, h.hostNicSign, h.sport,
    h.dport, h.length, and_self]

variable (t) in
/-- The groups with their labels; `none` is a panic. -/
def labelled (hostNicSign : String) (attakIPNets : List NetIPNet) (isRand : Bool) (ipCountDF4 : IPCount)
    (pinfos : List PacketInfo) : Option (List (String × LabelledStat)) :=
  (o.groups.run (sipBaseMerge hostNicSign attakIPNets isRand ipCountDF4 pinfos)).mapM fun e =>
    (label t o e.2).map (e.1, ·)

theorem mem_labelled {groups : List (String × LabelledStat)}
    (hrun : labelled t o hostNicSign attakIPNets isRand ipCountDF4 pinfos = some groups) {key : String}
    {lab : LabelledStat} : (key, lab) ∈ groups ↔
      ∃ g, (sipBaseMerge hostNicSign attakIPNets isRand ipCountDF4 pinfos).lookup key = some g ∧
        label t o g = some lab := by
  rw [(mem_of_mapM_some hrun).2]
  apply Iff.intro
  · intro ⟨⟨key', g⟩, he, hlabel⟩
    obtain ⟨lab', hlab, hpair⟩ := Option.map_eq_some_iff.mp hlabel
    cases hpair
    exact ⟨g, (o.groups.mem_run).mp he, hlab⟩
  · intro ⟨g, hg, hlab⟩
    exact ⟨(key, g), (o.groups.mem_run).mpr hg, by rw [hlab, Option.map_some]⟩

variable (t hostNicSign attakIPNets isRand ipCountDF4 pinfos) in
theorem exists_labelled (hnum : 4 ≤ t.numStats.labels.length) (hproto : 3 ≤ t.protoStats.labels.length) :
    ∃ groups, labelled t o hostNicSign attakIPNets isRand ipCountDF4 pinfos = some groups := by
  apply exists_mapM_some
  intro e _
  obtain ⟨lab, hlab⟩ := exists_label o hnum hproto e.2
  exact ⟨(e.1, lab), by rw [hlab, Option.map_some]⟩

/-- Each group has the labels and the indices of its packets, and none is left out. -/
theorem labelled_groups {groups : List (String × LabelledStat)}
    (hrun : labelled t o hostNicSign attakIPNets isRand ipCountDF4 pinfos = some groups) :
    (∀ e ∈ groups, e.2.Of t.numStats hostNicSign e.1
        (groupInfos attakIPNets isRand ipCountDF4 pinfos e.1) ∧
      ∀ i, i ∈ e.2.stat.ipIdxs ↔ ∃ info, pinfos[i]? = some info ∧
        e.1 ∈ sourcesOf attakIPNets isRand ipCountDF4 info) ∧
    ∀ key, (∃ info ∈ pinfos, key ∈ sourcesOf attakIPNets isRand ipCountDF4 info) →
      ∃ e ∈ groups, e.1 = key := by
  apply And.intro
  · intro ⟨key, lab⟩ he
    obtain ⟨g, hg, hlab⟩ := (mem_labelled o hrun).mp he
    obtain ⟨hstat, hof⟩ := of_label (group_of_lookup hostNicSign attakIPNets isRand ipCountDF4 hg) hlab
    refine ⟨hof, ?_⟩
    intro i
    rw [hstat]
    exact mem_ipIdxs hostNicSign attakIPNets isRand ipCountDF4 hg i
  · intro key ⟨info, hinfo, hkey⟩
    obtain ⟨i, hi⟩ := List.mem_iff_getElem?.mp hinfo
    obtain ⟨g, hg, _⟩ := (mem_group_iff hostNicSign attakIPNets isRand ipCountDF4).mpr ⟨info, hi, hkey⟩
    obtain ⟨e, he⟩ := (mem_of_mapM_some hrun).1 _ ((o.groups.mem_run).mpr hg)
    obtain ⟨lab, hlab, _⟩ := Option.map_eq_some_iff.mp he
    exact ⟨(key, lab), (mem_labelled o hrun).mpr ⟨g, hg, hlab⟩, rfl⟩

/-- The packets that are written, each with its group. -/
def written (pinfos : List PacketInfo) (labelled : List (String × LabelledStat)) : List (String × PacketInfo) :=
  labelled.flatMap fun e => (e.2.stat.ipIdxs.filterMap (pinfos[·]?)).map (e.1, ·)

theorem dedup_eq {labelled : List (String × LabelledStat)}
    (hof : ∀ e ∈ labelled,
      e.2.Of t.numStats hostNicSign e.1 (groupInfos attakIPNets isRand ipCountDF4 pinfos e.1))
    (m : GoMap String RuleStat) :
    labelled.foldl (fun m e => e.2.dedup pinfos m) m = (written pinfos labelled).foldl (fun m e =>
      m.insert ((groupStat t hostNicSign attakIPNets isRand ipCountDF4 pinfos e.1).fiveTupleKey e.2)
        ((groupStat t hostNicSign attakIPNets isRand ipCountDF4 pinfos e.1).fiveTuple e.2)) m := by
  induction labelled generalizing m with
  | nil => rfl
  | cons e labelled ih =>
    have hlabels := fun info => fiveTuple_groupStat (hof e (by simp)) info
    have hcons : written pinfos (e :: labelled) =
        (e.2.stat.ipIdxs.filterMap (pinfos[·]?)).map (e.1, ·) ++ written pinfos labelled := List.flatMap_cons
    rw [List.foldl_cons, ih fun e' he' => hof e' (by simp [he']), hcons, List.foldl_append,
      LabelledStat.dedup_packets, List.foldl_map]
    simp only [hlabels]

theorem mem_written {labelled : List (String × LabelledStat)}
    (hidx : ∀ e ∈ labelled, ∀ i, i ∈ e.2.stat.ipIdxs ↔ ∃ info, pinfos[i]? = some info ∧
      e.1 ∈ sourcesOf attakIPNets isRand ipCountDF4 info)
    (hall : ∀ key, (∃ info ∈ pinfos, key ∈ sourcesOf attakIPNets isRand ipCountDF4 info) →
      ∃ e ∈ labelled, e.1 = key) (key : String) (info : PacketInfo) :
    (key, info) ∈ written pinfos labelled ↔
      info ∈ pinfos ∧ key ∈ sourcesOf attakIPNets isRand ipCountDF4 info := by
  simp only [written, List.mem_flatMap, List.mem_map, List.mem_filterMap, Prod.mk.injEq]
  apply Iff.intro
  · intro ⟨e, he, info', ⟨i, hi, hget⟩, hkey, hinfo⟩
    subst hkey hinfo
    obtain ⟨info'', hget', hsource⟩ := (hidx e he i).mp hi
    cases hget.symm.trans hget'
    exact ⟨List.mem_of_getElem? hget, hsource⟩
  · intro ⟨hinfo, hsource⟩
    obtain ⟨e, he, hkey⟩ := hall key ⟨info, hinfo, hsource⟩
    obtain ⟨i, hget⟩ := List.mem_iff_getElem?.mp hinfo
    exact ⟨e, he, info, ⟨i, (hidx e he i).mpr ⟨info, hget, hkey ▸ hsource⟩, hget⟩, hkey, rfl⟩

/-- What a run that does not panic puts out. -/
theorem process_eq_some {r : Dni.AttackerIPMergeResult} {out : GoMap String LabelledStat × GoMap String RuleStat}
    (h : process t o hostNicSign pinfos r = some out) :
    ∃ groups, labelled t o hostNicSign r.attackerIPNets r.isRand r.randIPCountDF pinfos = some groups ∧
      out.1 = groups.foldl (fun m e => m.insert e.1 e.2) ∅ ∧
      out.2 = groups.foldl (fun m e => e.2.dedup pinfos m) ∅ := by
  obtain ⟨groups, hrun, hout⟩ := Option.map_eq_some_iff.mp h
  exact ⟨groups, hrun, by rw [← hout], by rw [← hout]⟩

/-- The groups that are put out. -/
theorem lookup_groups {r : Dni.AttackerIPMergeResult} {out : GoMap String LabelledStat × GoMap String RuleStat}
    (h : process t o hostNicSign pinfos r = some out) {key : String} {lab : LabelledStat} :
    out.1.lookup key = some lab ↔
      ∃ g, (sipBaseMerge hostNicSign r.attackerIPNets r.isRand r.randIPCountDF pinfos).lookup key = some g ∧
        label t o g = some lab := by
  obtain ⟨groups, hrun, hgroups, _⟩ := process_eq_some o h
  have hfun : ∀ e ∈ groups, ∀ e' ∈ groups, e.1 = e'.1 → e.2 = e'.2 := by
    intro ⟨key, lab⟩ he ⟨key', lab'⟩ he' hkey
    obtain ⟨g, hg, hlab⟩ := (mem_labelled o hrun).mp he
    obtain ⟨g', hg', hlab'⟩ := (mem_labelled o hrun).mp he'
    dsimp only at hkey
    subst hkey
    cases hg.symm.trans hg'
    exact Option.some.inj (hlab.symm.trans hlab')
  rw [hgroups, lookup_foldl_insert hfun, ← mem_labelled o hrun]
  simp only [AList.lookup_empty, reduceCtorEq, and_false, or_false]
  apply Iff.intro
  · intro ⟨⟨key', lab'⟩, he, hkey, hlab⟩
    dsimp only at hkey hlab
    rwa [← hkey, ← hlab]
  · intro he
    exact ⟨_, he, rfl, rfl⟩

/-- The entries that are written: one for each packet and each group that it is attributed to. -/
theorem lookup_rules {r : Dni.AttackerIPMergeResult} {out : GoMap String LabelledStat × GoMap String RuleStat}
    (h : process t o hostNicSign pinfos r = some out) {k : String} {rule : RuleStat} :
    out.2.lookup k = some rule ↔
      ∃ info ∈ pinfos, ∃ key ∈ sourcesOf r.attackerIPNets r.isRand r.randIPCountDF info,
        (groupStat t hostNicSign r.attackerIPNets r.isRand r.randIPCountDF pinfos key).fiveTupleKey info = k ∧
        (groupStat t hostNicSign r.attackerIPNets r.isRand r.randIPCountDF pinfos key).fiveTuple info = rule := by
  obtain ⟨groups, hrun, _, hrules⟩ := process_eq_some o h
  obtain ⟨hof, hall⟩ := labelled_groups o hrun
  have hmem := mem_written (fun e he => (hof e he).2) hall
  let stat := groupStat t hostNicSign r.attackerIPNets r.isRand r.randIPCountDF pinfos
  have hdash : ∀ e ∈ written pinfos groups, '-' ∉ e.1.toList := by
    intro ⟨key, info⟩ he
    exact not_dash_mem_source ((hmem key info).mp he).2
  have hfun : ∀ e ∈ written pinfos groups, ∀ e' ∈ written pinfos groups,
      (stat e.1).fiveTupleKey e.2 = (stat e'.1).fiveTupleKey e'.2 →
        (stat e.1).fiveTuple e.2 = (stat e'.1).fiveTuple e'.2 :=
    fun e he e' he' => LabelledStat.fiveTupleKey_inj (hdash e he) (hdash e' he') (congrArg stat)
  rw [hrules, dedup_eq fun e he => (hof e he).1, lookup_foldl_insert hfun]
  simp only [AList.lookup_empty, reduceCtorEq, and_false, or_false, Prod.exists, hmem]
  apply Iff.intro
  · intro ⟨key, info, ⟨hinfo, hkey⟩, hk, hrule⟩
    exact ⟨info, hinfo, key, hkey, hk, hrule⟩
  · intro ⟨info, hinfo, key, hkey, hk, hrule⟩
    exact ⟨key, info, ⟨hinfo, hkey⟩, hk, hrule⟩

variable (hostNicSign pinfos) in
/-- The rules that are written, without their keys. -/
theorem process_rules {r : Dni.AttackerIPMergeResult} (hnum : 4 ≤ t.numStats.labels.length)
    (hproto : 3 ≤ t.protoStats.labels.length) :
    ∃ out, process t o hostNicSign pinfos r = some out ∧ ∀ rule, (∃ k, out.2.lookup k = some rule) ↔
      ∃ info ∈ pinfos, ∃ key ∈ sourcesOf r.attackerIPNets r.isRand r.randIPCountDF info,
        (groupStat t hostNicSign r.attackerIPNets r.isRand r.randIPCountDF pinfos key).fiveTuple info = rule := by
  obtain ⟨groups, hrun⟩ := exists_labelled t o hostNicSign r.attackerIPNets r.isRand r.randIPCountDF pinfos hnum hproto
  have hout : process t o hostNicSign pinfos r = some (groups.foldl (fun m e => m.insert e.1 e.2) ∅,
      groups.foldl (fun m e => e.2.dedup pinfos m) ∅) :=
    Option.map_eq_some_iff.mpr ⟨groups, hrun, rfl⟩
  refine ⟨_, hout, ?_⟩
  intro rule
  refine (exists_congr fun k => lookup_rules o hout).trans ?_
  apply Iff.intro
  · intro ⟨_, info, hinfo, key, hkey, _, hrule⟩
    exact ⟨info, hinfo, key, hkey, hrule⟩
  · intro ⟨info, hinfo, key, hkey, hrule⟩
    exact ⟨_, info, hinfo, key, hkey, rfl, hrule⟩

end SndSIPBaseMergeDedupTask

end Dni
