import Dni.DmsRules
import Dni.SipDedupRandom

namespace Dni.Cpp

open GoMap

theorem takeWhile_digits {n : Nat} {rest : List Char} (h : ∀ c, rest.head? = some c → c.isDigit = false) :
    (Nat.toDigits 10 n ++ rest).takeWhile Char.isDigit = Nat.toDigits 10 n := by
  rw [List.takeWhile_append_of_pos fun c hc => Nat.isDigit_of_mem_toDigits (by omega) (by omega) hc]
  cases rest with
  | nil => rw [List.takeWhile_nil, List.append_nil]
  | cons c rest => rw [List.takeWhile_cons_of_neg (by simp [h c rfl]), List.append_nil]

theorem toDigits_ne_nil (n : Nat) : Nat.toDigits 10 n ≠ [] := by
  intro h
  have hlen := @Nat.length_toDigits_pos 10 n
  rw [h] at hlen
  exact Nat.lt_irrefl 0 hlen

theorem stoul_digits {n : Nat} (hn : n < 2 ^ 64) : stoul (Nat.toDigits 10 n) = some n := by
  have ht := @takeWhile_digits n [] (by simp)
  rw [List.append_nil] at ht
  unfold stoul
  rw [ht]
  dsimp only
  rw [if_neg (toDigits_ne_nil n), Nat.ofDigitChars_ten_toDigits, if_neg (by omega)]

theorem stoi_digits (n : Nat) : stoi (Nat.toDigits 10 n) = if n < 2 ^ 31 then some (n : Int) else none := by
  have ht := @takeWhile_digits n [] (by simp)
  rw [List.append_nil] at ht
  unfold stoi
  rw [ht]
  dsimp only
  rw [if_neg (toDigits_ne_nil n), Nat.ofDigitChars_ten_toDigits]
  split
  next h => rw [if_neg (by omega)]
  next h => rw [if_pos (by omega)]

theorem toList_repr (n : Nat) : (Nat.repr n).toList = Nat.toDigits 10 n := by simp [Nat.repr]

theorem repr_ne_minus_one (n : Nat) : Nat.repr n ≠ "-1" := by
  intro h
  have hd := not_dash_mem_repr n
  rw [h] at hd
  exact absurd hd (by decide +kernel)

/-- A text is the sentinel of the rule generator exactly if it is a label that says so. -/
theorem featureText_eq_sentinel (label : String) (v : UInt32) :
    featureText label v = "-1" ↔ label = "-1" := by
  unfold featureText
  split
  next h =>
    apply iff_of_false (repr_ne_minus_one _)
    rw [h]
    decide +kernel
  next => rfl

/-- The action, limit mode and limit value of a rule. -/
def DMSRule.judgement (x : DMSRule) : String × String × Int := (x.action, x.limitMode, x.limitMaxValue)

namespace SndGenDeDupDMSRulesTask

theorem srcIP_cidrString (c : CIDR) (h : c.len < 2 ^ 31) : srcIP (cidrString c) = some ⟨c.ip, c.len⟩ := by
  have hlt := UInt32.toNat_lt c.ip
  have hslash : ∀ x ∈ Nat.toDigits 10 c.ip.toNat, decide (x ≠ '/') = true := by
    intro x hx
    have hd := Nat.isDigit_of_mem_toDigits (by omega) (by omega) hx
    rw [decide_eq_true_eq]
    intro he
    rw [he] at hd
    exact absurd hd (by decide)
  unfold srcIP
  rw [if_neg (cidrString_ne_random c), cidrString_toList]
  dsimp only
  rw [List.takeWhile_append_of_pos hslash, List.dropWhile_append_of_pos hslash,
    List.takeWhile_cons_of_neg (by decide), List.dropWhile_cons_of_neg (by decide), List.append_nil,
    stoul_digits (by omega), Option.bind_some, if_neg (List.cons_ne_nil _ _), List.tail_cons, stoi_digits,
    if_pos h, Option.map_some, UInt32.ofNat_toNat]

/-- What a generated rule says is the judgement; only the conversion of the protocol can fail once
those of the addresses do not. -/
theorem generateDmsRule_judgement {stat : RuleStat} {c : RuleCIDR} {ip : Nat} (hsrc : srcIP stat.sip = some c)
    (hip : stoul stat.dip.toList = some ip) (netdev : Netdev) :
    (generateDmsRule stat netdev).map DMSRule.judgement =
      (stoi stat.proto.toList).map fun _ => action stat netdev := by
  simp only [generateDmsRule, hsrc, hip, Option.bind_eq_bind, Option.bind_some]
  cases stoi stat.proto.toList <;> rfl

theorem judgement_ruleStat {key : String} {c : RuleCIDR} (hsrc : srcIP key = some c)
    (stat : SIPBaseMergeStats) (p : Packet) (netdev : Netdev) :
    (generateDmsRule (ruleStat key stat p) netdev).map DMSRule.judgement =
      if p.protocol.toNat < 2 ^ 31 then some (action (ruleStat key stat p) netdev) else none := by
  have hdip := UInt32.toNat_lt p.dip
  have hstoul : stoul (ruleStat key stat p).dip.toList = some p.dip.toNat := by
    rw [ruleStat, toList_repr]
    exact stoul_digits (by omega)
  rw [@generateDmsRule_judgement (ruleStat key stat p) _ _ hsrc hstoul, ruleStat, toList_repr, stoi_digits]
  split <;> rfl

end SndGenDeDupDMSRulesTask

namespace SndGenDMSRulesTask

variable (ports : Order UInt32 Unit) (protos : Order UInt32 String) (stat : SIPBaseMergeStats)
  (netdev : Netdev)

/-- All rules of a group carry its judgement, and there is one. -/
theorem judgement_generateDmsRules : (∀ x ∈ generateDmsRules ports protos stat netdev,
    x.judgement = action stat netdev) ∧ generateDmsRules ports protos stat netdev ≠ [] := by
  unfold generateDmsRules
  dsimp only
  apply And.intro
  · intro x hx
    obtain ⟨dPort, _, hx⟩ := List.mem_flatMap.mp hx
    obtain ⟨protocol, _, hx⟩ := List.mem_map.mp hx
    rw [← hx]
    rfl
  · have hne : ∀ l : List Int, (if l.length = 0 then [-1] else l) ≠ [] := by
      intro l
      split
      next => exact List.cons_ne_nil _ _
      next h => exact fun hl => h (by rw [hl, List.length_nil])
    intro h
    rw [List.flatMap_eq_nil_iff] at h
    obtain ⟨d, hd⟩ := List.exists_mem_of_ne_nil _ (hne _)
    exact hne _ (List.map_eq_nil_iff.mp (h d hd))

end SndGenDMSRulesTask

theorem len_of_belongs {c : CIDR} {ip : UInt32} (h : belongs c ip = true) : c.len ≤ 32 := by
  unfold belongs at h
  split at h
  next => cases h
  next hle => omega

namespace SndSIPBaseMergeDeDupTask

variable {F : Type} [FloatArith F] [LE F] [DecidableLE F] (t : SndSIPBaseMergeDeDupTask F) (o : DedupOrders) (packets : List Packet)
  (r : AttackerIPMergeResult) (hostNicName : String)

/-- For every group and every rule of it, the rule generators come to the same action, limit mode and
limit value. -/
def ActionsAgree (netdev : Netdev) (ports : Order UInt32 Unit) (protos : Order UInt32 String) : Prop :=
  ∀ g stat, (t.allStat o packets r hostNicName).lookup g = some stat →
    ∀ k rule, (t.rules o packets r hostNicName).lookup k = some rule → rule.sip = g →
      ∃ dms, SndGenDeDupDMSRulesTask.generateDmsRule rule netdev = some dms ∧
        ∀ x ∈ SndGenDMSRulesTask.generateDmsRules ports protos stat netdev, x.judgement = dms.judgement

/-- A port of the random group is centralized, or the labels of both are the sentinel. -/
def RandomPortsClear : Prop :=
  let sport := t.labelOf ((packets.filter fun p => p.sip ∈ r.randomIPs).map Packet.sport)
  let dport := t.labelOf ((packets.filter fun p => p.sip ∈ r.randomIPs).map Packet.dport)
  sport = "centralize" ∨ dport = "centralize" ∨ sport = "-1" ∧ dport = "-1"

/-- The judgements of a group and of a packet's rule in it. -/
theorem action_eq_iff {key : String} {stat : SIPBaseMergeStats}
    (h : t.Labelled packets r hostNicName key stat) (p : Packet) (netdev : Netdev) :
    SndGenDMSRulesTask.action stat netdev = SndGenDeDupDMSRulesTask.action (ruleStat key stat p) netdev ↔
      (key = "RANDOM" → t.RandomPortsClear packets r) := by
  have hdrop : ("drop", "", 0) ≠ (("limit", calcLimitRule netdev) : String × String × Int) := by
    intro he
    have hact : ("drop" : String) = "limit" := congrArg Prod.fst he
    exact absurd hact (by decide +kernel)
  have hlabel : ("-1" : String) ≠ "centralize" := by decide +kernel
  unfold SndGenDMSRulesTask.action SndGenDeDupDMSRulesTask.action
  simp only [ruleStat, ne_eq, featureText_eq_sentinel]
  by_cases hkey : key = "RANDOM"
  · have hrand : stat.isSrcIPRandom = true := h.isSrcIPRandom.mpr hkey
    have hs := h.srcPort
    have hd := h.dstPort
    rw [population, if_pos hkey] at hs hd
    unfold RandomPortsClear
    dsimp only
    rw [← hs, ← hd]
    simp only [hkey, hrand, Bool.not_true, Bool.false_eq_true, false_or, not_true_eq_false, forall_true_left]
    by_cases hsc : stat.srcPort.statType = "centralize"
    · simp [hsc]
    · by_cases hdc : stat.dstPort.statType = "centralize"
      · simp [hdc]
      · simp only [hsc, hdc, or_self, if_false, false_or]
        split
        next hne =>
          apply iff_of_false hdrop.symm
          tauto
        next hne =>
          apply iff_of_true rfl
          tauto
  · have hrand : stat.isSrcIPRandom = false := by
      rw [Bool.eq_false_iff]
      exact fun hr => hkey (h.isSrcIPRandom.mp hr)
    simp [hkey, hrand]

/-- The source text of every group reads back. -/
theorem srcIP_of_group {key : String} {p : Packet} (h : groupKey r.attackerIPs p = key) :
    ∃ c, SndGenDeDupDMSRulesTask.srcIP key = some c := by
  by_cases hcov : Covered r.attackerIPs p
  · obtain ⟨c, _, hfind, hk⟩ := groupKey_of_covered hcov
    have hb : belongs c p.sip = true := by simpa using List.find?_some hfind
    have hlen := len_of_belongs hb
    rw [← h, hk]
    exact ⟨_, SndGenDeDupDMSRulesTask.srcIP_cidrString c (by omega)⟩
  · rw [← h, groupKey_eq_random_iff.mpr hcov]
    exact ⟨_, if_pos rfl⟩

/-- The generators agree on the rule of one packet. -/
theorem agree_on_packet_iff {key : String} {stat : SIPBaseMergeStats} {p : Packet}
    (hl : (t.allStat o packets r hostNicName).lookup key = some stat) (hk : groupKey r.attackerIPs p = key)
    (netdev : Netdev) (ports : Order UInt32 Unit) (protos : Order UInt32 String) :
    (∃ dms, SndGenDeDupDMSRulesTask.generateDmsRule (ruleStat key stat p) netdev = some dms ∧
      ∀ x ∈ SndGenDMSRulesTask.generateDmsRules ports protos stat netdev, x.judgement = dms.judgement) ↔
      p.protocol.toNat < 2 ^ 31 ∧ (key = "RANDOM" → t.RandomPortsClear packets r) := by
  obtain ⟨c, hsrc⟩ := srcIP_of_group r hk
  have hjudge := SndGenDeDupDMSRulesTask.judgement_ruleStat hsrc stat p netdev
  obtain ⟨hall, hne⟩ := SndGenDMSRulesTask.judgement_generateDmsRules ports protos stat netdev
  rw [← t.action_eq_iff packets r hostNicName (t.labelled_of_lookup o packets r hostNicName hl) p netdev]
  apply Iff.intro
  · intro ⟨dms, hd, hx⟩
    rw [hd, Option.map_some] at hjudge
    split at hjudge
    next hp =>
      obtain ⟨x, hxmem⟩ := List.exists_mem_of_ne_nil _ hne
      refine ⟨hp, ?_⟩
      rw [← hall x hxmem, hx x hxmem, Option.some.inj hjudge]
    next => cases hjudge
  · intro ⟨hp, hact⟩
    rw [if_pos hp] at hjudge
    obtain ⟨dms, hd, hj⟩ := Option.map_eq_some_iff.mp hjudge
    refine ⟨dms, hd, ?_⟩
    intro x hx
    rw [hall x hx, hact, hj]

/-- Where the generators agree, they do so on the rule of every packet that has one. -/
theorem ActionsAgree.on_packet {netdev : Netdev} {ports : Order UInt32 Unit} {protos : Order UInt32 String}
    (h : t.ActionsAgree o packets r hostNicName netdev ports protos) {p : Packet} (hp : p ∈ packets)
    (hor : Covered r.attackerIPs p ∨ r.containRandomAttack = true) : p.protocol.toNat < 2 ^ 31 ∧
      (groupKey r.attackerIPs p = "RANDOM" → t.RandomPortsClear packets r) := by
  have hstat : ∃ stat, (t.allStat o packets r hostNicName).lookup (groupKey r.attackerIPs p) = some stat := by
    rw [exists_allStat]
    by_cases hcov : Covered r.attackerIPs p
    · exact Or.inl ⟨p, hp, hcov, rfl⟩
    · exact Or.inr ⟨hor.resolve_left hcov, groupKey_eq_random_iff.mpr hcov⟩
  obtain ⟨stat, hl⟩ := hstat
  obtain ⟨k, hk⟩ := (t.exists_rules o packets r hostNicName).mpr ⟨_, stat, hl, p, hp, rfl, rfl⟩
  exact (t.agree_on_packet_iff o packets r hostNicName hl rfl netdev ports protos).mp
    (h _ stat hl k _ hk rfl)

/-- The two generators agree exactly if every packet with a rule has a protocol that is an int, and
the random group has no rule, a centralized port or the sentinel for both labels. -/
theorem actions_agree_iff (netdev : Netdev) (ports : Order UInt32 Unit) (protos : Order UInt32 String) :
    t.ActionsAgree o packets r hostNicName netdev ports protos ↔
      (∀ p ∈ packets, Covered r.attackerIPs p ∨ r.containRandomAttack = true → p.protocol.toNat < 2 ^ 31) ∧
        (r.containRandomAttack = true → (∃ p ∈ packets, ¬ Covered r.attackerIPs p) →
          t.RandomPortsClear packets r) := by
  apply Iff.intro
  · intro h
    refine ⟨fun p hp hor => (h.on_packet t o packets r hostNicName hp hor).1, ?_⟩
    intro hflag ⟨p, hp, hcov⟩
    exact (h.on_packet t o packets r hostNicName hp (Or.inr hflag)).2 (groupKey_eq_random_iff.mpr hcov)
  · intro ⟨hproto, hports⟩ g stat hl k rule hk hsip
    obtain ⟨key, stat', hl', p, hp, hkey, hrule⟩ := (t.exists_rules o packets r hostNicName).mp ⟨k, hk⟩
    have hkg : key = g := by rw [← hsip, ← hrule, ruleStat]
    subst hkg
    cases hl.symm.trans hl'
    rw [← hrule, t.agree_on_packet_iff o packets r hostNicName hl hkey]
    have hor : Covered r.attackerIPs p ∨ r.containRandomAttack = true := by
      obtain ⟨q, _, hq, hqk⟩ | ⟨hflag, _⟩ := (t.exists_allStat o packets r hostNicName).mp ⟨stat, hl⟩
      · by_contra hno
        rw [not_or] at hno
        exact groupKey_eq_random_iff.mp (hqk.trans (hkey.symm.trans (groupKey_eq_random_iff.mpr hno.1))) hq
      · exact Or.inr hflag
    refine ⟨hproto p hp hor, ?_⟩
    intro hrand
    have hcov := groupKey_eq_random_iff.mp (hkey.trans hrand)
    exact hports (hor.resolve_left hcov) ⟨p, hp, hcov⟩

/-- Twelve packets of one random source, with different ports on both sides. -/
def scan : List Packet :=
  (List.range 12).map fun k =>
    ⟨0x01010101, UInt32.ofNat (1000 + k * k), UInt32.ofNat (2000 + k * k), 17, 60, 0x0A000001⟩

/-- A random group without a centralized port is limited by one generator and dropped by the other. -/
theorem scan_disagrees : ¬ (usual Float).ActionsAgree DedupOrders.stored scan ⟨[], true, [0x01010101]⟩ "eth0"
    ⟨100, 1, 10, 0⟩ Order.stored Order.stored := by
  intro h
  have hclear := (h.on_packet (usual Float) DedupOrders.stored scan ⟨[], true, [0x01010101]⟩ "eth0"
    (p := ⟨0x01010101, 1000, 2000, 17, 60, 0x0A000001⟩) (by decide +kernel) (Or.inr rfl)).2 (by decide +kernel)
  exact absurd hclear (by unfold RandomPortsClear; decide +kernel)

end SndSIPBaseMergeDeDupTask

end Dni.Cpp
