import Dni.FloodRules
import Dni.MergeIRanges

namespace Dni.Dms

open SortSearch

structure IPCount where
  ip : String
  count : Nat
deriving DecidableEq

/-- `byIPCount.Less`: larger counts first. -/
def ipCountLess (a b : IPCount) : Bool := b.count < a.count

/-- The choices that the runtime makes in one diagnosis: the orders in which maps are ranged over,
and how the sorting routines place equal elements. -/
structure Choices where
  ip : GoMap.Order String Nat
  port : GoMap.Order UInt16 Nat
  byCount : Sorter ipCountLess
  byStart : Sorter (rangeLess (id : IP → IP))

def sortIPCountMapByCount (ch : Choices) (m : GoMap String Nat) (n : Int) : List IPCount :=
  let s := ch.byCount.run ((ch.ip.run m).map fun e => ⟨e.1, e.2⟩)
  s.take (if n < 0 ∨ (m.keys.length : Int) < n then m.keys.length else n.toNat)

/-- The fields of a `pktMeta` that the flood detector reads. -/
structure PktMeta where
  rip : String
  lip : String
  rport : UInt16
  lport : UInt16
deriving DecidableEq

/-- The fields of a `transStat` that calcTransStat fills. -/
structure TransStat where
  sip : List IPCount
  dip : List IPCount
  srcPort : GoMap UInt16 Nat
  dstPort : GoMap UInt16 Nat

/-- `m[key(x)] += 1` over the packets. -/
def countBy {κ : Type} [DecidableEq κ] (key : PktMeta → κ) (data : List PktMeta) : GoMap κ Nat :=
  GoMap.accumulate key 0 (fun n _ => n + 1) data ∅

def calcTransStat (ch : Choices) (data : List PktMeta) : TransStat where
  sip := sortIPCountMapByCount ch (countBy PktMeta.rip data) (-1)
  dip := sortIPCountMapByCount ch (countBy PktMeta.lip data) (-1)
  srcPort := countBy PktMeta.rport data
  dstPort := countBy PktMeta.lport data

/-- The four results of classifySrcIPs. -/
structure SrcClasses where
  newhigh : List IPCount := []
  esthigh : List IPCount := []
  newlow : List IPCount := []
  estlow : List IPCount := []

def classifySrcIPs (est : GoMap String Unit) (th : Nat) : List IPCount → SrcClasses
  | [] => {}
  | stat :: stats =>
    let c := classifySrcIPs est th stats
    if th < stat.count then
      if stat.ip ∉ est then { c with newhigh := stat :: c.newhigh }
      else { c with esthigh := stat :: c.esthigh }
    else if stat.ip ∉ est then { c with newlow := stat :: c.newlow }
    else { c with estlow := stat :: c.estlow }

/-- A text that is no address parses to the nil one. -/
def mergeIps (ch : Choices) (ips : List IPCount) : Option (List String) :=
  (mergeIRanges ch.byStart (ips.map fun c => .ip ((parseIP c.ip.toList).getD []))).bind fun ranges =>
    (ranges.mapM IRange.toIPNets).bind fun nets => nets.flatten.mapM NetIPNet.string

def isRandSrc0 (ipStat : List IPCount) (th : Capability) : Bool := th.n ≤ ipStat.length

def isRandSrc3 (ch : Choices) (atk susp : List IPCount) (th : Capability) :
    Option (Bool × List String) :=
  (mergeIps ch atk).map fun spoofed =>
    (th.n ≤ (atk.length + susp.length : Int) &&
      ((atk.length : Int) ≤ mulInt th.strict spoofed.length || th.n < (spoofed.length : Int)), spoofed)

theorem newhigh_eq (est : GoMap String Unit) (th : Nat) (stats : List IPCount) :
    (classifySrcIPs est th stats).newhigh =
      stats.filter fun s => decide (th < s.count) && decide (s.ip ∉ est) := by
  induction stats with
  | nil => rfl
  | cons s stats ih =>
    simp only [classifySrcIPs, List.filter_cons]
    by_cases hc : th < s.count <;> by_cases he : s.ip ∈ est <;> simp [hc, he, ih]

theorem mem_newhigh {est : GoMap String Unit} {th : Nat} {stats : List IPCount} {s : IPCount} :
    s ∈ (classifySrcIPs est th stats).newhigh ↔ s ∈ stats ∧ th < s.count ∧ s.ip ∉ est := by
  simp [newhigh_eq]

theorem mem_sortIPCountMapByCount {ch : Choices} {m : GoMap String Nat} {c : IPCount} :
    c ∈ sortIPCountMapByCount ch m (-1) ↔ m.lookup c.ip = some c.count := by
  have hlen : (ch.byCount.run ((ch.ip.run m).map fun e => (⟨e.1, e.2⟩ : IPCount))).length =
      m.keys.length := by
    rw [(ch.byCount.perm _).length_eq, List.length_map, ← (ch.ip.keys_perm m).length_eq,
      GoMap.Order.keys, List.length_map]
  rw [sortIPCountMapByCount, if_pos (Or.inl (by decide)), ← hlen, List.take_length,
    (ch.byCount.perm _).mem_iff, List.mem_map]
  constructor
  · intro h
    rcases h with ⟨⟨k, v⟩, he, rfl⟩
    exact ch.ip.mem_run.mp he
  · intro h
    exact ⟨(c.ip, c.count), ch.ip.mem_run.mpr h, rfl⟩

end Dni.Dms
