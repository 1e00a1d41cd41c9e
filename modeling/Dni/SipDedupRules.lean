import Dni.SipDedup
import Dni.Lib.Fields

namespace Dni.Cpp

open GoMap

theorem cidrString_toList (cidr : CIDR) : (cidrString cidr).toList =
    Nat.toDigits 10 cidr.ip.toNat ++ '/' :: Nat.toDigits 10 cidr.len := by
  simp [cidrString, Nat.repr]

theorem cidrString_ne_random (cidr : CIDR) : cidrString cidr ≠ "RANDOM" := by
  intro h
  have hslash : '/' ∈ (cidrString cidr).toList := by simp [cidrString_toList]
  rw [h] at hslash
  exact absurd hslash (by decide +kernel)

theorem not_dash_mem_digits (n : Nat) : '-' ∉ Nat.toDigits 10 n := by
  intro h
  have hd := Nat.isDigit_of_mem_toDigits (by omega) (by omega) h
  exact absurd hd (by decide)

theorem not_dash_mem_repr (n : Nat) : '-' ∉ (Nat.repr n).toList := by
  simpa [Nat.repr] using not_dash_mem_digits n

theorem not_dash_mem_cidrString (cidr : CIDR) : '-' ∉ (cidrString cidr).toList := by
  simp [cidrString_toList, not_dash_mem_digits]

/-- The group of a packet in the loop over the packets. -/
def groupKey (attackerIPs : List CIDR) (p : Packet) : String :=
  match attackerIPs.find? fun cidr => belongs cidr p.sip with
  | some cidr => cidrString cidr
  | none => "RANDOM"

/-- Some attacker network has the source of the packet. -/
def Covered (attackerIPs : List CIDR) (p : Packet) : Prop := ∃ cidr ∈ attackerIPs, belongs cidr p.sip = true

instance (attackerIPs : List CIDR) (p : Packet) : Decidable (Covered attackerIPs p) :=
  inferInstanceAs (Decidable (∃ cidr ∈ attackerIPs, _))

section Keys

variable {attackerIPs : List CIDR} {p : Packet}

theorem groupKey_of_covered (h : Covered attackerIPs p) :
    ∃ cidr ∈ attackerIPs, attackerIPs.find? (fun cidr => belongs cidr p.sip) = some cidr ∧
      groupKey attackerIPs p = cidrString cidr := by
  obtain ⟨c, hc⟩ := Option.isSome_iff_exists.mp (List.find?_isSome.mpr h)
  refine ⟨c, List.mem_of_find?_eq_some hc, hc, ?_⟩
  rw [groupKey, hc]

theorem find?_of_not_covered (h : ¬ Covered attackerIPs p) :
    attackerIPs.find? (fun cidr => belongs cidr p.sip) = none :=
  List.find?_eq_none.mpr fun c hc hb => h ⟨c, hc, hb⟩

theorem groupKey_eq_random_iff : groupKey attackerIPs p = "RANDOM" ↔ ¬ Covered attackerIPs p := by
  apply Iff.intro
  · intro h hcov
    obtain ⟨c, _, _, hk⟩ := groupKey_of_covered hcov
    exact cidrString_ne_random c (hk.symm.trans h)
  · intro h
    rw [groupKey, find?_of_not_covered h]

theorem not_dash_mem_groupKey (attackerIPs : List CIDR) (p : Packet) :
    '-' ∉ (groupKey attackerIPs p).toList := by
  by_cases h : Covered attackerIPs p
  · obtain ⟨c, _, _, hk⟩ := groupKey_of_covered h
    rw [hk]
    exact not_dash_mem_cidrString c
  · rw [groupKey_eq_random_iff.mpr h]
    decide +kernel

end Keys

/-- Under one label two values are numbers, or the same text. -/
theorem featureText_match (label : String) (v w : UInt32) :
    Fields.Match '-' (featureText label v).toList (featureText label w).toList := by
  unfold featureText
  split
  next => exact Or.inr ⟨not_dash_mem_repr _, not_dash_mem_repr _⟩
  next => exact Or.inl rfl

theorem ruleElements_toList (first : String) (stat : SIPBaseMergeStats) (p : Packet) :
    (ruleElements first stat p).toList = first.toList ++ (['-', '-'] ++ ['-', '-'].intercalate
      [(Nat.repr p.dip.toNat).toList, (featureText stat.srcPort.statType p.sport).toList,
        (featureText stat.dstPort.statType p.dport).toList, (Nat.repr p.protocol.toNat).toList,
        (featureText stat.length.statType p.length).toList]) := by
  have hsep : ("--" : String).toList = ['-', '-'] := by decide +kernel
  simp only [ruleElements, String.toList_append, hsep, List.intercalate_cons_cons,
    List.intercalate_singleton, List.append_assoc]

/-- The key of a rule determines the rule. -/
theorem ruleElements_inj {first first' : String} {stat stat' : SIPBaseMergeStats} {p p' : Packet}
    (hf : '-' ∉ first.toList) (hf' : '-' ∉ first'.toList) (hs : first = first' → stat = stat')
    (h : ruleElements first stat p = ruleElements first' stat' p') :
    ruleStat first stat p = ruleStat first' stat' p' := by
  have hlists := congrArg String.toList h
  rw [ruleElements_toList, ruleElements_toList] at hlists
  obtain ⟨hfirst, hrest⟩ := Fields.append_inj (Or.inr ⟨hf, hf'⟩) hlists
  have hff := String.toList_inj.mp hfirst
  have hss := hs hff
  subst hff hss
  have hnum : ∀ n m : Nat, Fields.Match '-' (Nat.repr n).toList (Nat.repr m).toList :=
    fun n m => Or.inr ⟨not_dash_mem_repr n, not_dash_mem_repr m⟩
  have hfields := Fields.intercalate_inj
    (.cons (hnum _ _) (.cons (featureText_match _ _ _) (.cons (featureText_match _ _ _)
      (.cons (hnum _ _) (.cons (featureText_match _ _ _) .nil))))) hrest
  simp only [List.cons.injEq, String.toList_inj, and_true] at hfields
  obtain ⟨hdip, hsport, hdport, hproto, hlength⟩ := hfields
  rw [ruleStat, ruleStat, hdip, hsport, hdport, hproto, hlength]

namespace SndSIPBaseMergeDeDupTask

section Merge

variable (attackerIPs : List CIDR)

/-- The loop over the packets fills its three maps independently. -/
theorem foldl_mergePacket (ps : List (Packet × Nat)) (st : MergeState) :
    ps.foldl (mergePacket attackerIPs) st =
      { allMergeRet := accumulate (fun pk => groupKey attackerIPs pk.1) {}
          (fun ret pk => ret.add pk.1) (ps.filter fun pk => Covered attackerIPs pk.1) st.allMergeRet
        ipPositions := accumulate (fun pk => pk.1.sip) [] (fun l pk => l ++ [pk.2]) ps st.ipPositions
        cidrIncludePositions := accumulate (fun pk => groupKey attackerIPs pk.1) []
          (fun l pk => l ++ [pk.2]) ps st.cidrIncludePositions } := by
  induction ps generalizing st with
  | nil => rfl
  | cons pk ps ih =>
    rw [List.foldl_cons, ih]
    by_cases h : Covered attackerIPs pk.1
    · obtain ⟨c, _, hfind, hk⟩ := groupKey_of_covered h
      simp only [mergePacket, hfind, Option.isNone_some, Bool.false_eq_true, if_false, accumulate,
        List.filter_cons, h, decide_true, if_true, List.foldl_cons, pushBack]
      generalize groupKey attackerIPs pk.1 = k at hk
      subst hk
      rfl
    · have hk := groupKey_eq_random_iff.mpr h
      simp only [mergePacket, find?_of_not_covered h, Option.isNone_none, if_true, accumulate,
        List.filter_cons, h, decide_false, Bool.false_eq_true, if_false, List.foldl_cons, pushBack]
      generalize groupKey attackerIPs pk.1 = k at hk
      subst hk
      rfl

theorem foldl_append_snd {α : Type} (ps : List (α × Nat)) (l : List Nat) :
    ps.foldl (fun l pk => l ++ [pk.2]) l = l ++ ps.map Prod.snd := by
  induction ps generalizing l with
  | nil => simp
  | cons pk ps ih => rw [List.foldl_cons, ih, List.map_cons, List.append_assoc, List.singleton_append]

/-- The positions of a group are the indices of its packets, in the order of the table. -/
theorem getD_positions {κ : Type} [DecidableEq κ] (key : Packet → κ) (packets : List Packet) (k : κ) :
    ((accumulate (fun pk => key pk.1) [] (fun l pk => l ++ [pk.2]) packets.zipIdx ∅).lookup k).getD [] =
      (packets.zipIdx.filter fun pk => key pk.1 = k).map Prod.snd := by
  rw [lookup_accumulate, foldl_append_snd]
  split
  next => rfl
  next hno =>
    have hnil : (packets.zipIdx.filter fun pk => key pk.1 = k) = [] := by
      rw [List.filter_eq_nil_iff]
      intro pk hpk hk
      exact hno ⟨pk, hpk, of_decide_eq_true hk⟩
    rw [hnil]
    rfl

theorem mem_positions {κ : Type} [DecidableEq κ] {key : Packet → κ} {packets : List Packet} {k : κ} {i : Nat} :
    i ∈ ((accumulate (fun pk => key pk.1) [] (fun l pk => l ++ [pk.2]) packets.zipIdx ∅).lookup k).getD [] ↔
      ∃ p, packets[i]? = some p ∧ key p = k := by
  rw [getD_positions]
  simp [List.mk_mem_zipIdx_iff_getElem?]

end Merge

section Run

variable {F : Type} [FloatArith F] [LE F] [DecidableLE F] (t : SndSIPBaseMergeDeDupTask F) (o : DedupOrders) (packets : List Packet)
  (r : AttackerIPMergeResult) (hostNicName : String)

theorem mem_allMergeRet {key : String} : key ∈ allMergeRet o packets r ↔
    (∃ p ∈ packets, Covered r.attackerIPs p ∧ groupKey r.attackerIPs p = key) ∨
      r.containRandomAttack = true ∧ key = "RANDOM" := by
  have hfirst : key ∈ (mergePackets r.attackerIPs packets).allMergeRet ↔
      ∃ p ∈ packets, Covered r.attackerIPs p ∧ groupKey r.attackerIPs p = key := by
    rw [mergePackets, foldl_mergePacket]
    dsimp only
    rw [mem_accumulate]
    apply Iff.intro
    · intro ⟨pk, hpk, hk⟩
      obtain ⟨hin, hcov⟩ := List.mem_filter.mp hpk
      exact ⟨pk.1, List.fst_mem_of_mem_zipIdx hin, of_decide_eq_true hcov, hk⟩
    · intro ⟨p, hp, hcov, hk⟩
      obtain ⟨i, hi⟩ := List.mem_iff_getElem?.mp hp
      exact ⟨(p, i), List.mem_filter.mpr ⟨List.mk_mem_zipIdx_iff_getElem?.mpr hi, decide_eq_true hcov⟩, hk⟩
  unfold allMergeRet
  dsimp only
  split
  next h =>
    rw [AList.mem_insert, hfirst, or_comm]
    simp [h]
  next h =>
    rw [hfirst]
    simp [h]

theorem lookup_allStat {key : String} {stat : SIPBaseMergeStats} :
    (t.allStat o packets r hostNicName).lookup key = some stat ↔
      ∃ ret, (allMergeRet o packets r).lookup key = some ret ∧
        t.mergeStats o.protocols hostNicName (convertMap r) key ret = stat := by
  unfold allStat
  rw [lookup_foldl_insert]
  · simp only [AList.lookup_empty, reduceCtorEq, and_false, or_false, Prod.exists, Order.mem_run]
    apply Iff.intro
    · intro h
      rcases h with ⟨k, ret, hret, hk, hs⟩
      subst hk
      exact ⟨ret, hret, hs⟩
    · intro h
      rcases h with ⟨ret, hret, hs⟩
      exact ⟨key, ret, hret, rfl, hs⟩
  · rintro ⟨k, ret⟩ h ⟨k', ret'⟩ h' hk
    dsimp only at hk
    subst hk
    rw [Order.mem_run] at h h'
    cases h.symm.trans h'
    rfl

/-- A group has statistics if it has a packet, or is the random one and asked for. -/
theorem exists_allStat {key : String} : (∃ stat, (t.allStat o packets r hostNicName).lookup key = some stat) ↔
    (∃ p ∈ packets, Covered r.attackerIPs p ∧ groupKey r.attackerIPs p = key) ∨
      r.containRandomAttack = true ∧ key = "RANDOM" := by
  rw [← mem_allMergeRet o packets r, mem_iff_lookup]
  simp only [lookup_allStat]
  apply Iff.intro
  · intro ⟨_, ret, hret, _⟩
    exact ⟨ret, hret⟩
  · intro ⟨ret, hret⟩
    exact ⟨_, ret, hret, rfl⟩

theorem mem_rounds {key : String} {stat : SIPBaseMergeStats} {i : Nat} :
    (key, stat, i) ∈ t.rounds o packets r hostNicName ↔
      (t.allStat o packets r hostNicName).lookup key = some stat ∧
        ∃ p, packets[i]? = some p ∧ groupKey r.attackerIPs p = key := by
  unfold rounds
  dsimp only
  rw [mergePackets, foldl_mergePacket]
  simp only [List.mem_flatMap, List.mem_map, Prod.mk.injEq, Prod.exists, Order.mem_run]
  apply Iff.intro
  · intro h
    rcases h with ⟨k, s, hs, j, hj, hk, hst, hji⟩
    subst hk hst hji
    exact ⟨hs, mem_positions.mp hj⟩
  · intro h
    rcases h with ⟨hs, hi⟩
    exact ⟨key, stat, hs, i, mem_positions.mpr hi, rfl, rfl, rfl⟩

/-- The rounds with the packets of their positions. -/
def written : List (String × SIPBaseMergeStats × Packet) :=
  (t.rounds o packets r hostNicName).filterMap fun e => packets[e.2.2]?.map (e.1, e.2.1, ·)

theorem mem_written {key : String} {stat : SIPBaseMergeStats} {p : Packet} :
    (key, stat, p) ∈ t.written o packets r hostNicName ↔
      (t.allStat o packets r hostNicName).lookup key = some stat ∧ p ∈ packets ∧
        groupKey r.attackerIPs p = key := by
  simp only [written, List.mem_filterMap, Option.map_eq_some_iff, Prod.mk.injEq, Prod.exists]
  apply Iff.intro
  · intro ⟨k, s, i, hround, q, hq, hk, hs, hp⟩
    subst hk hs hp
    obtain ⟨hlook, q', hq', hkey⟩ := (t.mem_rounds o packets r hostNicName).mp hround
    cases hq.symm.trans hq'
    exact ⟨hlook, List.mem_of_getElem? hq, hkey⟩
  · intro ⟨hlook, hp, hkey⟩
    obtain ⟨i, hi⟩ := List.mem_iff_getElem?.mp hp
    exact ⟨key, stat, i, (t.mem_rounds o packets r hostNicName).mpr ⟨hlook, p, hi, hkey⟩, p, hi, rfl, rfl, rfl⟩

theorem rules_eq : t.rules o packets r hostNicName = (t.written o packets r hostNicName).foldl
    (fun m e => m.insert (ruleElements e.1 e.2.1 e.2.2) (ruleStat e.1 e.2.1 e.2.2)) ∅ := by
  have hfold : ∀ (es : List (String × SIPBaseMergeStats × Nat)) (m : GoMap String RuleStat),
      es.foldl (addRule packets) m = (es.filterMap fun e => packets[e.2.2]?.map (e.1, e.2.1, ·)).foldl
        (fun m e => m.insert (ruleElements e.1 e.2.1 e.2.2) (ruleStat e.1 e.2.1 e.2.2)) m := by
    intro es
    induction es with
    | nil => intro m; rfl
    | cons e es ih =>
      intro m
      rw [List.foldl_cons, ih, List.filterMap_cons, addRule]
      cases packets[e.2.2]? <;> rfl
  exact hfold _ ∅

/-- The rules that are written: one text for each packet of each group with statistics. -/
theorem exists_rules {rule : RuleStat} : (∃ k, (t.rules o packets r hostNicName).lookup k = some rule) ↔
    ∃ key stat, (t.allStat o packets r hostNicName).lookup key = some stat ∧
      ∃ p ∈ packets, groupKey r.attackerIPs p = key ∧ ruleStat key stat p = rule := by
  have hfun : ∀ e ∈ t.written o packets r hostNicName, ∀ e' ∈ t.written o packets r hostNicName,
      ruleElements e.1 e.2.1 e.2.2 = ruleElements e'.1 e'.2.1 e'.2.2 →
        ruleStat e.1 e.2.1 e.2.2 = ruleStat e'.1 e'.2.1 e'.2.2 := by
    intro ⟨key, stat, p⟩ he ⟨key', stat', p'⟩ he' heq
    obtain ⟨hl, _, hk⟩ := (t.mem_written o packets r hostNicName).mp he
    obtain ⟨hl', _, hk'⟩ := (t.mem_written o packets r hostNicName).mp he'
    refine ruleElements_inj (hk ▸ not_dash_mem_groupKey _ p) (hk' ▸ not_dash_mem_groupKey _ p') ?_ heq
    intro hkk
    have hkk' : key = key' := hkk
    rw [hkk', hl'] at hl
    exact (Option.some.inj hl).symm
  rw [rules_eq]
  simp only [lookup_foldl_insert hfun, AList.lookup_empty, reduceCtorEq, and_false, or_false, Prod.exists,
    mem_written]
  apply Iff.intro
  · intro ⟨_, key, stat, p, ⟨hl, hp, hk⟩, _, hr⟩
    exact ⟨key, stat, hl, p, hp, hk, hr⟩
  · intro ⟨key, stat, hl, p, hp, hk, hr⟩
    exact ⟨_, key, stat, p, ⟨hl, hp, hk⟩, rfl, hr⟩

end Run

end SndSIPBaseMergeDeDupTask

end Dni.Cpp
