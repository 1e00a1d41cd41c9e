import Dni.AddrBits
import Dni.Lib.SortSearch

namespace Dni

open Bytes SortSearch

/-- An address range. `ρ` is how an end point is held: as its bytes, or as a reference to them. -/
structure Range (ρ : Type) where
  start : ρ
  stop : ρ
deriving DecidableEq

def Range.map {ρ σ : Type} (f : ρ → σ) (r : Range ρ) : Range σ := ⟨f r.start, f r.stop⟩

/-- The three implementations of the `IRange` interface: IPWrapper, IPNetWrapper and *Range. -/
inductive IRange (ρ : Type)
  | ip (ip : ρ)
  | net (ip : ρ) (mask : IP)
  | range (r : Range ρ)
deriving DecidableEq

/-- One round emits the largest network that starts at `s`; the budget bounds the rounds. -/
def toIPNetsLoop : Nat → IP → IP → Option (List NetIPNet)
  | 0, _, _ => none
  | fuel + 1, s, stop =>
    let ipBits := s.length * 8
    let cidr := max (prefixLength (xor (addOne stop) s)) (ipBits - trailingZeros s)
    let ipNet : NetIPNet := ⟨s, cidrMask cidr ipBits⟩
    (lastIP ipNet).bind fun tmp =>
      if !lessThan tmp stop then some [ipNet]
      else (toIPNetsLoop fuel (addOne tmp) stop).map (ipNet :: ·)

/-- Each round moves the start up, so the width of the range is a sufficient budget. -/
def Range.toIPNets (r : Range IP) : Option (List NetIPNet) :=
  toIPNetsLoop (val r.stop - val r.start + 1) r.start r.stop

def IRange.toRange : IRange IP → Option (Range IP)
  | .ip a => some ⟨a, a⟩
  | .net a m => (lastIP ⟨a, m⟩).map (⟨a, ·⟩)
  | .range r => some r

def IRange.toIPNets : IRange IP → Option (List NetIPNet)
  | .ip a => some [⟨a, cidrMask (a.length * 8) (a.length * 8)⟩]
  | .net a m => some [⟨a, m⟩]
  | .range r => r.toIPNets

section Merge

variable {ρ : Type} (rd : ρ → IP)

/-- `Ranges.Less`. -/
def rangeLess (a b : Range ρ) : Bool := lessThan (rd a.start) (rd b.start)

/-- The loop of sortAndMerge: `cur` is the range being grown, of family `familyLength`. -/
def mergeLoop (familyLength : Nat) (cur : Range ρ) : List (Range ρ) → List (Range ρ)
  | [] => [cur]
  | now :: rest =>
    if (rd now.start).length ≠ familyLength then
      cur :: mergeLoop (rd now.start).length now rest
    else if allFF (rd cur.stop) || !lessThan (addOne (rd cur.stop)) (rd now.start) then
      mergeLoop familyLength
        (if lessThan (rd cur.stop) (rd now.stop) then ⟨cur.start, now.stop⟩ else cur) rest
    else cur :: mergeLoop familyLength now rest

def mergeRanges (sort : Sorter (rangeLess rd)) (ranges : List (Range ρ)) : List (Range ρ) :=
  match sort.run ranges with
  | [] => []
  | now :: rest => mergeLoop rd (rd now.start).length now rest

end Merge

/-- Every element of the result is a fresh `*Range`. -/
def sortAndMerge (sort : Sorter (rangeLess (id : IP → IP))) (wrappers : List (IRange IP)) :
    Option (List (Range IP)) :=
  (wrappers.mapM IRange.toRange).map (mergeRanges id sort)

def convertBatch (wrappers : List (Range IP)) : Option (List (IRange IP)) :=
  (wrappers.mapM Range.toIPNets).map fun nets => nets.flatten.map fun n => .net n.ip n.mask

def mergeIRanges (sort : Sorter (rangeLess (id : IP → IP))) (wrappers : List (IRange IP)) :
    Option (List (IRange IP)) :=
  (sortAndMerge sort wrappers).bind convertBatch

/-- A network contains the addresses of its family that agree with it under the mask. -/
def NetIPNet.Covers (n : NetIPNet) (a : IP) : Prop :=
  a.length = n.ip.length ∧ List.zipWith (· &&& ·) a n.mask = List.zipWith (· &&& ·) n.ip n.mask

def Range.Covers (r : Range IP) (a : IP) : Prop :=
  a.length = r.start.length ∧ val r.start ≤ val a ∧ val a ≤ val r.stop

def IRange.Covers : IRange IP → IP → Prop
  | .ip b, a => a = b
  | .net b m, a => NetIPNet.Covers ⟨b, m⟩ a
  | .range r, a => r.Covers a

/-- A contiguous mask of the address's own family, and no host bit set under it. -/
def NetIPNet.Canonical (n : NetIPNet) : Prop :=
  Family n.ip.length ∧ ∃ k ≤ 8 * n.ip.length,
    n.mask = cidrMask (8 * n.ip.length - k) (8 * n.ip.length) ∧ 2 ^ k ∣ val n.ip

def Range.Valid (r : Range IP) : Prop :=
  Family r.start.length ∧ r.stop.length = r.start.length ∧ val r.start ≤ val r.stop

def IRange.Valid : IRange IP → Prop
  | .ip a => Family a.length
  | .net a m => NetIPNet.Canonical ⟨a, m⟩
  | .range r => r.Valid

end Dni
