import Dni.GenRules
import Dni.DmsAgree
import Dni.SipDedupExact
import Dni.SipDedupSides

namespace Dni

open GoMap

/-- `strconv.Atoi`: the number, and whether the error is nil. Digits past the range of 64 bits end the reading
before anything that follows them. -/
def atoi (s : String) : Int × Bool :=
  let cs := s.toList
  let ds := if cs.head? = some '-' ∨ cs.head? = some '+' then cs.tail else cs
  let n := Nat.ofDigitChars 10 (ds.takeWhile Char.isDigit) 0
  if n < 2 ^ 64 ∧ (ds = [] ∨ ds.any (!·.isDigit)) then (0, false)
  else if cs.head? = some '-' then if n ≤ 2 ^ 63 then (-n, true) else (-2 ^ 63, false)
  else if n < 2 ^ 63 then (n, true) else (2 ^ 63 - 1, false)

/-- GenDMSRulesDedup: both ports are judged by the text of the source port. -/
def genDMSRulesDedup (fiveTupleValue : RuleStat) (netdev : Cpp.Netdev) : DMSRule :=
  let sport_central := (atoi fiveTupleValue.sport).2
  let dport_central := (atoi fiveTupleValue.sport).2
  let (action, limitMode, limitValue) :=
    if ¬ (fiveTupleValue.sip ≠ "random" ∨ sport_central ∨ dport_central) then ("limit", caculateLimitValue netdev)
    else ("drop", "", 0)
  { srcip := fiveTupleValue.sip
    dstip := fiveTupleValue.dip
    sport := fiveTupleValue.sport
    dport := fiveTupleValue.dport
    length := fiveTupleValue.length
    proto := (atoi fiveTupleValue.proto).1
    hostNicSign := fiveTupleValue.hostNicSign
    action := action
    limitMode := limitMode
    limnitMaxValue := limitValue }

def DMSRule.judgement (rule : DMSRule) : String × String × Int := (rule.action, rule.limitMode, rule.limnitMaxValue)

theorem judgement_dedup (stat : RuleStat) (netdev : Cpp.Netdev) : (genDMSRulesDedup stat netdev).judgement =
    if stat.sip = "random" ∧ (atoi stat.sport).2 = false then ("limit", caculateLimitValue netdev)
    else ("drop", "", 0) := by
  unfold genDMSRulesDedup DMSRule.judgement
  dsimp only
  cases hport : (atoi stat.sport).2 with
  | true => simp
  | false => by_cases hsip : stat.sip = "random" <;> simp [hsip]

/-- A number below 2^32 is read back. -/
theorem atoi_repr (v : UInt32) : atoi (Nat.repr v.toNat) = ((v.toNat : Int), true) := by
  have hlt := UInt32.toNat_lt v
  have hdigit : ∀ c ∈ Nat.toDigits 10 v.toNat, c.isDigit = true := fun c hc =>
    Nat.isDigit_of_mem_toDigits (by omega) (by omega) hc
  have hhead : ∀ c : Char, c.isDigit = false → (Nat.toDigits 10 v.toNat).head? ≠ some c := by
    intro c hc h
    rw [hdigit c (List.mem_of_head? h)] at hc
    cases hc
  have htake := @Cpp.takeWhile_digits v.toNat [] (by simp)
  rw [List.append_nil] at htake
  have hany : (Nat.toDigits 10 v.toNat).any (!·.isDigit) = false := by
    apply List.any_eq_false.mpr
    intro c hc
    rw [hdigit c hc]
    decide
  have hsign : ¬ ((Nat.toDigits 10 v.toNat).head? = some '-' ∨ (Nat.toDigits 10 v.toNat).head? = some '+') :=
    fun h => h.elim (hhead '-' (by decide)) (hhead '+' (by decide))
  unfold atoi
  simp only [Cpp.toList_repr, if_neg hsign, htake, Nat.ofDigitChars_ten_toDigits, hany]
  rw [if_neg fun h => h.2.elim (Cpp.toDigits_ne_nil _) Bool.false_ne_true, if_neg (hhead '-' (by decide)),
    if_pos (by omega)]

/-- The text of a port in a tuple reads as a number under the label for numbers, or where the label is one. -/
theorem atoi_ruleText (label : String) (v : UInt32) :
    (atoi (ruleText label v)).2 = true ↔ label = "centralize" ∨ (atoi label).2 = true := by
  unfold ruleText
  split
  next h =>
    rw [atoi_repr]
    exact iff_of_true rfl (Or.inl h)
  next h => rw [or_iff_right h]

namespace LabelledStat

variable (lab : LabelledStat) (netdev : Cpp.Netdev)

/-- What the rules of a group have to say. -/
def dueAction : String × String × Int :=
  if lab.stat.sip = "random" ∧ lab.sport ≠ "centralize" ∧ lab.dport ≠ "centralize" then
    ("limit", caculateLimitValue netdev)
  else ("drop", "", 0)

/-- Both generators say it, one of the group and one of a tuple of it. -/
def ChoicesAgree (info : PacketInfo) : Prop :=
  (genDMSRulesDedup (lab.fiveTuple info) netdev).judgement = lab.dueAction netdev ∧
    ({ lab with } : DMSGroup).action netdev = lab.dueAction netdev

theorem choicesAgree_iff (hrand : lab.stat.sipRand = false) (info : PacketInfo) :
    lab.ChoicesAgree netdev info ↔ (lab.stat.sip = "random" → lab.sport = "centralize" ∨
      lab.dport = "centralize" ∧ (atoi lab.sport).2 = true) := by
  have hgroup : ({ lab with } : DMSGroup).action netdev = ("drop", "", 0) := by
    rw [DMSGroup.action, if_neg]
    rw [not_not, hrand]
    exact Or.inr (Or.inr Bool.false_ne_true)
  have hif : ∀ p : Prop, [Decidable p] →
      ((if p then ("limit", caculateLimitValue netdev) else ("drop", "", 0)) = ("drop", "", 0) ↔ ¬ p) := by
    intro p _
    split
    next h => exact iff_of_false (fun he => absurd (congrArg Prod.fst he) (show ¬ "limit" = "drop" by decide)) (not_not_intro h)
    next h => exact iff_of_true rfl h
  have hboth : lab.ChoicesAgree netdev info ↔
      (genDMSRulesDedup (lab.fiveTuple info) netdev).judgement = ("drop", "", 0) ∧
        lab.dueAction netdev = ("drop", "", 0) := by
    rw [ChoicesAgree, hgroup]
    apply Iff.intro
    · intro ⟨h, h'⟩
      exact ⟨h.trans h'.symm, h'.symm⟩
    · intro ⟨h, h'⟩
      exact ⟨h.trans h'.symm, h'.symm⟩
  have htext := atoi_ruleText lab.sport (info.field "SPort")
  rw [hboth, judgement_dedup, dueAction, hif, hif, not_and, not_and, fiveTuple, Bool.not_eq_false, htext, not_and_or,
    not_not, not_not, ← forall_and, or_and_left, and_comm]

end LabelledStat

namespace SndSIPBaseMergeDedupTask

/-- The generators agree on every group that a run puts out and every tuple that it derives from it. -/
def ChoicesAgree (pinfos : List PacketInfo) (mergedStats : GoMap String LabelledStat) (netdev : Cpp.Netdev) : Prop :=
  ∀ key lab, mergedStats.lookup key = some lab → ∀ i ∈ lab.stat.ipIdxs, ∀ info, pinfos[i]? = some info →
    lab.ChoicesAgree netdev info

/-- Where there are random packets, their source ports are centralized; or their destination ports are, and the
label of the source ports reads as a number. -/
def RandomPortsJudged {F : Type} [FloatArith F] (t : SndSIPBaseMergeDedupOptions F) (r : Dni.AttackerIPMergeResult) (pinfos : List PacketInfo) :
    Prop :=
  (∃ info ∈ pinfos, r.isRand = true ∧ info.field "SIP" ∈ r.randIPCountDF) →
    groupLabel t r.attackerIPNets r.isRand r.randIPCountDF pinfos "random" "SPort" = "centralize" ∨
      groupLabel t r.attackerIPNets r.isRand r.randIPCountDF pinfos "random" "DPort" = "centralize" ∧
        (atoi (groupLabel t r.attackerIPNets r.isRand r.randIPCountDF pinfos "random" "SPort")).2 = true

theorem random_mem_sourcesOf (attakIPNets : List NetIPNet) (isRand : Bool) (ipCountDF4 : IPCount) (info : PacketInfo) :
    "random" ∈ sourcesOf attakIPNets isRand ipCountDF4 info ↔ isRand = true ∧ info.field "SIP" ∈ ipCountDF4 := by
  unfold sourcesOf
  rw [List.mem_append, or_iff_right]
  · split
    next h => exact iff_of_true (List.mem_singleton.mpr rfl) h
    next h => exact iff_of_false List.not_mem_nil h
  · intro h
    obtain ⟨n, _, hn⟩ := Option.map_eq_some_iff.mp (Option.mem_toList.mp h)
    exact n.text_ne_random hn

section Run

variable {F : Type} [FloatArith F] {t : SndSIPBaseMergeDedupOptions F} {o : SipDedupOrders} {hostNicSign : String} {pinfos : List PacketInfo}
  {r : Dni.AttackerIPMergeResult} {out : GoMap String LabelledStat × GoMap String RuleStat}

/-- A group that is put out: its flag, its labels and its packets. -/
theorem group_of_process (h : process t o hostNicSign pinfos r = some out) {key : String} {lab : LabelledStat}
    (hl : out.1.lookup key = some lab) : lab.stat.sipRand = false ∧
      lab.Of t.numStats hostNicSign key (groupInfos r.attackerIPNets r.isRand r.randIPCountDF pinfos key) ∧
      ∀ i, i ∈ lab.stat.ipIdxs ↔ ∃ info, pinfos[i]? = some info ∧
        key ∈ sourcesOf r.attackerIPNets r.isRand r.randIPCountDF info := by
  obtain ⟨groups, hrun, _⟩ := process_eq_some o h
  obtain ⟨g, hg, hlab⟩ := (lookup_groups o h).mp hl
  obtain ⟨hof, hidx⟩ := (labelled_groups o hrun).1 _ ((mem_labelled o hrun).mpr ⟨g, hg, hlab⟩)
  have hstat := (of_label (group_of_lookup hostNicSign r.attackerIPNets r.isRand r.randIPCountDF hg) hlab).1
  refine ⟨?_, hof, hidx⟩
  rw [hstat]
  exact sipRand_of_lookup hostNicSign r.attackerIPNets r.isRand r.randIPCountDF hg

/-- Where the generators agree, they do so on the random packets. -/
theorem ChoicesAgree.on_random (h : process t o hostNicSign pinfos r = some out) {netdev : Cpp.Netdev}
    (hagree : ChoicesAgree pinfos out.1 netdev) : RandomPortsJudged t r pinfos := by
  intro ⟨info, hinfo, hrand⟩
  obtain ⟨groups, hrun, _⟩ := process_eq_some o h
  have hsource := (random_mem_sourcesOf r.attackerIPNets r.isRand r.randIPCountDF info).mpr hrand
  obtain ⟨⟨key, lab⟩, he, hkey⟩ := (labelled_groups o hrun).2 "random" ⟨info, hinfo, hsource⟩
  dsimp only at hkey
  subst hkey
  have hl := (lookup_groups o h).mpr ((mem_labelled o hrun).mp he)
  obtain ⟨hflag, hof, hidx⟩ := group_of_process h hl
  obtain ⟨i, hi⟩ := List.mem_iff_getElem?.mp hinfo
  have hports := (lab.choicesAgree_iff netdev hflag info).mp
    (hagree _ lab hl i ((hidx i).mpr ⟨info, hi, hsource⟩) info hi) hof.sip
  rwa [hof.sport, hof.dport] at hports

/-- The generators agree in a run exactly where the ports of its random packets say so. -/
theorem choices_agree_iff (h : process t o hostNicSign pinfos r = some out) (netdev : Cpp.Netdev) :
    ChoicesAgree pinfos out.1 netdev ↔ RandomPortsJudged t r pinfos := by
  apply Iff.intro
  · exact ChoicesAgree.on_random h
  · intro hports key lab hl i hi info hget
    obtain ⟨hflag, hof, hidx⟩ := group_of_process h hl
    apply (lab.choicesAgree_iff netdev hflag info).mpr
    intro hsip
    obtain ⟨info', hget', hsource⟩ := (hidx i).mp hi
    rw [hof.sip] at hsip
    subst hsip
    rw [hof.sport, hof.dport]
    exact hports ⟨info', List.mem_of_getElem? hget', (random_mem_sourcesOf _ _ _ _).mp hsource⟩

end Run

/-- Twelve packets of one random source, with different ports on both sides. -/
def scanInfos : List PacketInfo := Cpp.SndSIPBaseMergeDeDupTask.scan.map Cpp.Packet.info

def scanResult : Dni.AttackerIPMergeResult := ⟨[], true, (∅ : IPCount).insert 0x01010101 12⟩

/-- The same packets from one source port. -/
def beaconInfos : List PacketInfo :=
  Cpp.SndSIPBaseMergeDeDupTask.scan.map fun p => Cpp.Packet.info { p with sport := 4000 }

theorem choices_agree_iff_beacon : ∃ out,
    process (Cpp.SndSIPBaseMergeDeDupTask.usual Float).go ⟨Order.stored, Order.stored⟩ "eth0" beaconInfos scanResult =
      some out ∧ ChoicesAgree beaconInfos out.1 ⟨100, 1, 10, 0⟩ := by
  obtain ⟨out, hout, _⟩ := process_rules ⟨Order.stored, Order.stored⟩ "eth0" beaconInfos
    (t := (Cpp.SndSIPBaseMergeDeDupTask.usual Float).go) (r := scanResult) (by decide) (by decide)
  have hjudged : RandomPortsJudged (Cpp.SndSIPBaseMergeDeDupTask.usual Float).go scanResult beaconInfos := by
    unfold RandomPortsJudged
    decide +kernel
  exact ⟨out, hout, (choices_agree_iff hout _).mpr hjudged⟩

/-- The random group of the scan is dropped by one generator and limited by the other. -/
theorem scan_choices_differ : ∃ out,
    process (Cpp.SndSIPBaseMergeDeDupTask.usual Float).go ⟨Order.stored, Order.stored⟩ "eth0" scanInfos scanResult = some out ∧
      ¬ ChoicesAgree scanInfos out.1 ⟨100, 1, 10, 0⟩ := by
  obtain ⟨out, hout, _⟩ := process_rules ⟨Order.stored, Order.stored⟩ "eth0" scanInfos
    (t := (Cpp.SndSIPBaseMergeDeDupTask.usual Float).go) (r := scanResult) (by decide) (by decide)
  refine ⟨out, hout, ?_⟩
  intro hagree
  exact absurd (hagree.on_random hout) (by unfold RandomPortsJudged; decide +kernel)

end SndSIPBaseMergeDedupTask

end Dni
