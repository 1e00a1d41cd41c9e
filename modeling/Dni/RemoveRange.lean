import Dni.CidrMerge

namespace Dni

open Bytes SortSearch

/-- The arrays behind the addresses; a reference is an index, and an index may occur many times. -/
abbrev Heap := List IP

def read (h : Heap) (r : Nat) : IP := h.getD r []

/-- `ip.To4()[3] += d` on the bytes of an address: no carry, and a panic on anything but IPv4. -/
def bumpLast (d : UInt8) (ip : IP) : Option IP :=
  if isIPv4 ip then some (ip.dropLast ++ [ip.getLastD 0 + d]) else none

def bumpAt (d : UInt8) (h : Heap) (r : Nat) : Option Heap := (bumpLast d (read h r)).map (h.set r)

def IRange.map {ρ σ : Type} (f : ρ → σ) : IRange ρ → IRange σ
  | .ip a => .ip (f a)
  | .net a m => .net (f a) m
  | .range r => .range (r.map f)

/-- A single address is both ends of its range, and only a network gets a new array for its end. -/
def toRangeAt (h : Heap) : IRange Nat → Option (Heap × Range Nat)
  | .ip a => some (h, ⟨a, a⟩)
  | .net a m => (lastIP ⟨read h a, m⟩).map fun last => (h ++ [last], ⟨a, h.length⟩)
  | .range r => some (h, r)

def toRangesAt (h : Heap) : List (IRange Nat) → Option (Heap × List (Range Nat))
  | [] => some (h, [])
  | i :: l => do
    let (h, r) ← toRangeAt h i
    let (h, rs) ← toRangesAt h l
    return (h, r :: rs)

/-- One sorter for each content of the heap. -/
abbrev HeapSorter := (h : Heap) → Sorter (rangeLess (read h))

def sortAndMergeAt (sort : HeapSorter) (h : Heap) (l : List (IRange Nat)) :
    Option (Heap × List (Range Nat)) :=
  (toRangesAt h l).map fun (h, rs) => (h, mergeRanges (read h) (sort h) rs)

/-- The sweep over both lists. The last branch is the panic on an unexpected overlap. -/
def removeLoop : Nat → Heap → List (Range Nat) → List (Range Nat) → List (Range Nat) →
    Option (Heap × List (Range Nat))
  | _, h, [], _, min => some (h, min)
  | _, h, ins, [], min => some (h, min ++ ins)
  | 0, _, _ :: _, _ :: _, _ => none
  | fuel + 1, h, rin :: ins, rout :: outs, min =>
    let i := rin.map (read h)
    let o := rout.map (read h)
    if Bytes.compare o.stop i.start < 0 then removeLoop fuel h (rin :: ins) outs min
    else if Bytes.compare i.stop o.start < 0 then removeLoop fuel h ins (rout :: outs) (min ++ [rin])
    else if Bytes.compare o.start i.start ≤ 0 ∧ 0 ≤ Bytes.compare o.stop i.stop then
      removeLoop fuel h ins (rout :: outs) min
    else if Bytes.compare i.start o.start ≤ 0 ∧ 0 ≤ Bytes.compare i.stop o.stop then do
      let h ← bumpAt 255 h rout.start
      let h ← bumpAt 1 h rout.stop
      removeLoop fuel h (⟨rout.stop, rin.stop⟩ :: ins) outs (min ++ [⟨rin.start, rout.start⟩])
    else if Bytes.compare o.start i.start ≤ 0 ∧ 0 ≤ Bytes.compare i.stop o.stop then do
      let h ← bumpAt 1 h rout.stop
      removeLoop fuel h (⟨rout.stop, rin.stop⟩ :: ins) outs min
    else if Bytes.compare i.start o.start < 0 ∧ 0 < Bytes.compare o.stop i.stop then do
      let h ← bumpAt 255 h rout.start
      removeLoop fuel h ins (rout :: outs) (min ++ [⟨rin.start, rout.start⟩])
    else none

/-- Every round drops a range from one of the lists. -/
def removeRange (sort : HeapSorter) (h : Heap) (ins outs : List (IRange Nat)) :
    Option (Heap × List (Range Nat)) := do
  let (h, ins) ← sortAndMergeAt sort h ins
  let (h, outs) ← sortAndMergeAt sort h outs
  removeLoop (ins.length + outs.length) h ins outs []

def IRange.refs : IRange Nat → List Nat
  | .ip a => [a]
  | .net a _ => [a]
  | .range r => [r.start, r.stop]

/-- Ranges, networks and addresses of IPv4, all in the form of `n` bytes. -/
structure HeldIn (n : Nat) (h : Heap) (l : List (IRange Nat)) : Prop where
  arrays : ∀ ip ∈ h, ip.length = n ∧ isIPv4 ip = true
  refs : ∀ i ∈ l, ∀ r ∈ i.refs, r < h.length
  valid : ∀ i ∈ l, (i.map (read h)).Valid

def CoversAt (h : Heap) (l : List (IRange Nat)) (a : IP) : Prop := ∃ i ∈ l, (i.map (read h)).Covers a

/-- The call returns, with exactly the addresses of `ins` that are not in `outs`, in ranges that do
not end before they start, and it leaves every array of the caller as it was. -/
def RemovesExactly (sort : HeapSorter) (h : Heap) (ins outs : List (IRange Nat)) : Prop :=
  ∃ h' res, removeRange sort h ins outs = some (h', res) ∧
    (∀ a, (∃ r ∈ res, (r.map (read h')).Covers a) ↔ CoversAt h ins a ∧ ¬ CoversAt h outs a) ∧
    (∀ r ∈ res, val (read h' r.start) ≤ val (read h' r.stop)) ∧
    ∀ r < h.length, read h' r = read h r

end Dni
