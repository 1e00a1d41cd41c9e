import Dni.DmsRules
import Dni.SipDedupWritten

namespace Dni

open GoMap

/-- A rule of the Go generators. -/
structure DMSRule where
  hostNicSign : String := ""
  srcip : String := ""
  dstip : String := ""
  sport : String := ""
  dport : String := ""
  length : String := ""
  proto : Int := 0
  action : String := ""
  limitMode : String := ""
  limnitMaxValue : Int := 0
deriving DecidableEq

/-- The values of a netdev vector are rates, so that half of one is a uint64. -/
def caculateLimitValue (netdev : Cpp.Netdev) : String × Int :=
  if 1 / 1000000 < netdev.mbpsScore - netdev.kppsScore then ("bps", toInt (netdev.mbps / 2))
  else ("pps", toInt (netdev.kpps / 2))

/-- A labelled group as the generator reads it; `dipStat` is DIP.Stat, which no task writes. -/
structure DMSGroup extends LabelledStat where
  dipStat : String := ""

/-- The orders in which one call ranges over its maps; that of the addresses is a new one for each protocol. -/
structure RuleOrders where
  sports : Order UInt32 Int
  dports : Order UInt32 Int
  protos : Order UInt32 Int
  dips : UInt32 → Order UInt32 Int

def RuleOrders.stored : RuleOrders := ⟨Order.stored, Order.stored, Order.stored, fun _ => Order.stored⟩

/-- The ports that rules are made for. -/
def rulePorts (stat : String) (ports : List UInt32) : List Int :=
  if stat = "centralize" then ports.map fun port => port.toNat else [-1]

namespace DMSGroup

variable (g : DMSGroup) (netdev : Cpp.Netdev)

/-- Action judge: the action, limit mode and limit value. -/
def action : String × String × Int :=
  if ¬ (g.sport = "centralize" ∨ g.dport = "centralize" ∨ ¬ g.stat.sipRand) then
    ("limit", caculateLimitValue netdev)
  else ("drop", "", 0)

/-- The rule that a round of the loops fills. -/
def rule (proto dip : UInt32) (sport dport : Int) : DMSRule where
  action := (g.action netdev).1
  limitMode := (g.action netdev).2.1
  limnitMaxValue := (g.action netdev).2.2
  hostNicSign := g.stat.hostNicSign
  srcip := g.stat.sip
  dstip := uitoa dip
  sport := toString sport
  dport := toString dport
  proto := proto.toNat

/-- One rule for each combination, with the ports of each side by its own label. -/
def dueRules : List DMSRule :=
  g.stat.proto.keys.flatMap fun proto => g.stat.dip.keys.flatMap fun dip =>
    (rulePorts g.sport g.stat.sport.keys).flatMap fun sport =>
      (rulePorts g.dport g.stat.dport.keys).map fun dport => g.rule netdev proto dip sport dport

end DMSGroup

/-- GenDMSRules: both lists of ports go by the label of the source ports, and a round counts its rule without
storing it. -/
def genDMSRules (o : RuleOrders) (mergedStats : DMSGroup) (netdev : Cpp.Netdev) : List DMSRule :=
  let sports := rulePorts mergedStats.sport (o.sports.keys mergedStats.stat.sport)
  let dports := rulePorts mergedStats.sport (o.dports.keys mergedStats.stat.dport)
  let rule_num := mergedStats.dipStat.utf8ByteSize * sports.length * dports.length *
    mergedStats.stat.proto.keys.length
  let rules : List DMSRule := List.replicate rule_num {}
  let rounds := (o.protos.keys mergedStats.stat.proto).flatMap fun proto =>
    ((o.dips proto).keys mergedStats.stat.dip).flatMap fun dip =>
      sports.flatMap fun sport => dports.map fun dport => mergedStats.rule netdev proto dip sport dport
  (rounds.foldl (fun st _rule => (st.1, st.2 + 1)) (rules, 0)).1

theorem genDMSRules_eq (o : RuleOrders) (g : DMSGroup) (netdev : Cpp.Netdev) :
    genDMSRules o g netdev = List.replicate (g.dipStat.utf8ByteSize *
      (rulePorts g.sport (o.sports.keys g.stat.sport)).length *
      (rulePorts g.sport (o.dports.keys g.stat.dport)).length * g.stat.proto.keys.length) {} := by
  have hrounds : ∀ (rounds : List DMSRule) (st : List DMSRule × Nat),
      (rounds.foldl (fun st _rule => (st.1, st.2 + 1)) st).1 = st.1 := by
    intro rounds
    induction rounds with
    | nil => intro st; rfl
    | cons rule rounds ih => intro st; rw [List.foldl_cons, ih]
  exact hrounds _ _

namespace DMSGroup

variable (g : DMSGroup) (netdev : Cpp.Netdev)

/-- No combination is there, and none is counted: no protocol, or no port on a centralized source side; or no
address or no port on a centralized destination side, while DIP.Stat is empty or the source side is centralized
and no destination port is there. -/
def NothingDue : Prop :=
  g.stat.proto.keys = [] ∨ (g.sport = "centralize" ∧ g.stat.sport.keys = []) ∨
    ((g.stat.dip.keys = [] ∨ g.dport = "centralize" ∧ g.stat.dport.keys = []) ∧
      (g.dipStat = "" ∨ g.sport = "centralize" ∧ g.stat.dport.keys = []))

theorem rulePorts_eq_nil {stat : String} {ports : List UInt32} :
    rulePorts stat ports = [] ↔ stat = "centralize" ∧ ports = [] := by
  unfold rulePorts
  split
  next h => rw [List.map_eq_nil_iff, and_iff_right h]
  next h => exact iff_of_false (List.cons_ne_nil _ _) fun hc => h hc.1

theorem rule_ne_zero (proto dip : UInt32) (sport dport : Int) : g.rule netdev proto dip sport dport ≠ {} := by
  intro h
  have haction : (g.action netdev).1 = "" := congrArg DMSRule.action h
  unfold action at haction
  split at haction
  next => exact absurd haction (show ¬ "limit" = "" by decide)
  next => exact absurd haction (show ¬ "drop" = "" by decide)

theorem dueRules_eq_nil : g.dueRules netdev = [] ↔
    g.stat.proto.keys = [] ∨ g.stat.dip.keys = [] ∨ (g.sport = "centralize" ∧ g.stat.sport.keys = []) ∨
      g.dport = "centralize" ∧ g.stat.dport.keys = [] := by
  have hconst : ∀ {α β : Type} {xs : List α} {p : Prop} {f : α → List β}, (∀ x ∈ xs, f x = [] ↔ p) →
      (xs.flatMap f = [] ↔ xs = [] ∨ p) := by
    intro α β xs p f hf
    rw [List.flatMap_eq_nil_iff]
    cases xs with
    | nil => simp
    | cons x xs =>
      apply Iff.intro
      · intro h
        exact Or.inr ((hf x (by simp)).mp (h x (by simp)))
      · intro h y hy
        exact (hf y hy).mpr (h.resolve_left (List.cons_ne_nil _ _))
  unfold dueRules
  refine hconst fun proto _ => hconst fun dip _ => ?_
  rw [← rulePorts_eq_nil, ← rulePorts_eq_nil]
  exact hconst fun sport _ => List.map_eq_nil_iff

theorem keys_eq_nil (o : Order UInt32 Int) (m : IPCount) : o.keys m = [] ↔ m.keys = [] := by
  have hlen := (o.keys_perm m).length_eq
  rw [← List.length_eq_zero_iff, ← List.length_eq_zero_iff, hlen]

/-- The result is one rule for each combination exactly where nothing is due. -/
theorem genDMSRules_right_iff (o : RuleOrders) (g : DMSGroup) (netdev : Cpp.Netdev) :
    (genDMSRules o g netdev).Perm (g.dueRules netdev) ↔ g.NothingDue := by
  have hdue := g.dueRules_eq_nil netdev
  have hnum : genDMSRules o g netdev = [] ↔ g.dipStat = "" ∨ (g.sport = "centralize" ∧ g.stat.sport.keys = []) ∨
      (g.sport = "centralize" ∧ g.stat.dport.keys = []) ∨ g.stat.proto.keys = [] := by
    rw [genDMSRules_eq, List.replicate_eq_nil_iff, Nat.mul_eq_zero, Nat.mul_eq_zero, Nat.mul_eq_zero,
      String.utf8ByteSize_eq_zero_iff, List.length_eq_zero_iff, List.length_eq_zero_iff, List.length_eq_zero_iff,
      rulePorts_eq_nil, rulePorts_eq_nil, keys_eq_nil, keys_eq_nil, or_assoc, or_assoc]
  have hempty : (genDMSRules o g netdev).Perm (g.dueRules netdev) ↔
      genDMSRules o g netdev = [] ∧ g.dueRules netdev = [] := by
    apply Iff.intro
    · intro h
      have hnil : genDMSRules o g netdev = [] := by
        apply List.eq_nil_iff_forall_not_mem.mpr
        intro x hx
        have hzero : x = {} := by
          rw [genDMSRules_eq] at hx
          exact List.eq_of_mem_replicate hx
        have hdue' := h.mem_iff.mp hx
        simp only [dueRules, List.mem_flatMap, List.mem_map] at hdue'
        obtain ⟨proto, _, dip, _, sport, _, dport, _, hrule⟩ := hdue'
        exact g.rule_ne_zero netdev proto dip sport dport (hrule.trans hzero)
      exact ⟨hnil, List.nil_perm.mp (hnil ▸ h)⟩
    · intro ⟨h, h'⟩
      rw [h, h']
  rw [hempty, hnum, hdue, NothingDue]
  generalize (g.stat.proto.keys = []) = noProto
  generalize (g.sport = "centralize" ∧ g.stat.sport.keys = []) = noSport
  by_cases hproto : noProto
  · simp only [hproto, true_or, or_true, and_self]
  · by_cases hsport : noSport
    · simp only [hsport, true_or, or_true, and_self]
    · simp only [hproto, hsport, or_false, false_or]
      exact and_comm

/-- The group of one packet from 10.0.0.1 to port 80 of 10.0.0.2. -/
def single : DMSGroup where
  stat := ({} : SIPBaseMergedStat).merge "eth0" "10.0.0.0/24" 0
    (((((∅ : PacketInfo).insert "SIP" 0x0A000001).insert "DIP" 0x0A000002).insert "SPort" 4000).insert "DPort" 80)
  sport := "few"
  dport := "centralize"
  length := "few"
  proto := ∅

/-- The rule of a single packet is not in the result. -/
theorem single_not_right : ¬ (genDMSRules RuleOrders.stored single ⟨100, 1, 10, 0⟩).Perm
    (single.dueRules ⟨100, 1, 10, 0⟩) := by
  intro h
  exact absurd h.length_eq (by decide +kernel)

end DMSGroup

end Dni
