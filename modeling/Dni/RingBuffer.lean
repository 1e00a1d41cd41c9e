import Dni.Lib.Ring
import Mathlib.Algebra.Group.Nat.Defs

namespace Dni

def slotSize : Nat := 20 * 1024 * 1024

/-- The shared segment: its pointer record, and the bytes from the data address on. Bytes from
`memorySize` on are not part of it. -/
structure ShareMemory where
  memorySize : Nat
  head : UInt32
  tail : UInt32
  mem : Nat → UInt8

variable (S : Nat)

/-- The content of the slot at an offset. -/
def ShareMemory.slot (sm : ShareMemory) (offset : Nat) : List UInt8 :=
  (List.range S).map fun i => sm.mem (offset + i)

def advance (size : Nat) (p : UInt32) : UInt32 := (p + UInt32.ofNat S) % UInt32.ofNat size

/-- `copy` into the slot stops at the end of the slot or of the data. -/
def ShareMemory.write (sm : ShareMemory) (data : List UInt8) : ShareMemory :=
  let t := sm.tail.toNat
  { sm with
    mem := fun a => if t ≤ a ∧ a < t + S then (data[a - t]?).getD (sm.mem a) else sm.mem a
    tail := advance S sm.memorySize sm.tail }

def ShareMemory.used (sm : ShareMemory) : UInt32 :=
  (sm.tail - sm.head + UInt32.ofNat sm.memorySize) % UInt32.ofNat sm.memorySize

/-- The offset of the slot that is read, if there is one. -/
def ShareMemory.read (sm : ShareMemory) : Option (Nat × ShareMemory) :=
  if sm.used < UInt32.ofNat S then none
  else some (sm.head.toNat, { sm with head := advance S sm.memorySize sm.head })

inductive RingOp
  | write (data : List UInt8)
  | read

/-- The slot content that a call of Write asks for: the data as far as the slot goes, then the bytes that were there. -/
def ShareMemory.content (sm : ShareMemory) (data : List UInt8) : List UInt8 :=
  data.take S ++ (sm.slot S sm.tail.toNat).drop data.length

/-- A ring with its history: the slot contents that the writes asked for and those that were read, where each was
written, and every offset at which a slot was accessed. -/
structure RingRun where
  sm : ShareMemory
  written : List (List UInt8) := []
  places : List Nat := []
  read : List (List UInt8) := []
  accessed : List Nat := []

def RingRun.step (r : RingRun) : RingOp → RingRun
  | .write data =>
    { r with
      sm := r.sm.write S data
      written := r.written ++ [r.sm.content S data]
      places := r.places ++ [r.sm.tail.toNat]
      accessed := r.accessed ++ [r.sm.tail.toNat] }
  | .read =>
    match r.sm.read S with
    | none => r
    | some (p, sm) =>
      { r with sm := sm, read := r.read ++ [r.sm.slot S p], accessed := r.accessed ++ [p] }

/-- The ring behaves as a queue so far. -/
structure RingRun.Fifo (r : RingRun) : Prop where
  order : r.read <+: r.written
  kept : ∀ k, r.read.length ≤ k → ∀ c p, r.written[k]? = some c → r.places[k]? = some p →
    r.sm.slot S p = c
  empty : r.sm.read S = none ↔ r.read = r.written
  inside : ∀ p ∈ r.accessed, p + S ≤ r.sm.memorySize

/-- The property after every step of a run. -/
def FifoRun (r : RingRun) : List RingOp → Prop
  | [] => r.Fifo S
  | op :: ops => r.Fifo S ∧ FifoRun (r.step S op) ops

/-- The sum of the used bytes and the size passes 2^32 by less than a slot. -/
def Wraps (size head tail : Nat) : Prop :=
  head ≤ tail ∧ 2 ^ 32 ≤ tail - head + size ∧ tail - head + size < 2 ^ 32 + S

/-- A call that does no damage: a write finds its slot inside the buffer and leaves more than nothing
free, and no pointers are left whose difference wraps. -/
def Calm (sm : ShareMemory) : RingOp → Prop
  | .write _ =>
    sm.tail.toNat + S ≤ sm.memorySize ∧
      Ring.pending sm.memorySize sm.head.toNat sm.tail.toNat + S < sm.memorySize ∧
      ¬ Wraps S sm.memorySize sm.head.toNat (Ring.place sm.memorySize sm.tail.toNat S)
  | .read =>
    sm.head ≠ sm.tail →
      ¬ Wraps S sm.memorySize (Ring.place sm.memorySize sm.head.toNat S) sm.tail.toNat

def CalmRun (r : RingRun) : List RingOp → Prop
  | [] => True
  | op :: ops => Calm S r.sm op ∧ CalmRun (r.step S op) ops

/-- An empty ring of at least two slots, at any offset. -/
structure RingRun.Start (r : RingRun) : Prop where
  room : 2 * S ≤ r.sm.memorySize
  size_lt : r.sm.memorySize < 2 ^ 32
  head_lt : r.sm.head.toNat < r.sm.memorySize
  tail : r.sm.tail = r.sm.head
  written : r.written = []
  places : r.places = []
  read : r.read = []
  accessed : r.accessed = []

end Dni
