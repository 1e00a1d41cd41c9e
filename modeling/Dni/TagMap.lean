import Mathlib.Data.List.Basic
import Mathlib.Algebra.Group.Int.Defs
import Mathlib.Algebra.GroupWithZero.Nat

namespace Dni.Cpp.Utils

/-- A text, one character a byte. -/
abbrev Text := List Char

/-- How a call ends when it does not return zero. -/
inductive Stop
  | failed
  | terminated
  | nullDeref
deriving DecidableEq

theorem ok_bind {α β : Type} (a : α) (f : α → Except Stop β) : (Except.ok a >>= f) = f a := rfl

theorem error_bind {α β : Type} (e : Stop) (f : α → Except Stop β) : (Except.error e >>= f) = .error e := rfl

def isdigit (c : Char) : Bool := '0' ≤ c && c ≤ '9'

def isalnum (c : Char) : Bool :=
  isdigit c || ('a' ≤ c && c ≤ 'z') || ('A' ≤ c && c ≤ 'Z')

def isspace (c : Char) : Bool := c = ' ' || (9 ≤ c.toNat && c.toNat ≤ 13)

def digitsValue (ds : Text) : Nat := ds.foldl (fun n d => 10 * n + (d.toNat - '0'.toNat)) 0

/-- `std::stoi` in base ten; the exceptions it throws are caught nowhere. -/
def stoi (s : Text) : Except Stop Int :=
  let s := s.dropWhile isspace
  let (negative, s) := match s with
    | '-' :: s => (true, s)
    | '+' :: s => (false, s)
    | s => (false, s)
  let digits := s.takeWhile isdigit
  if digits = [] then .error .terminated
  else
    let value : Int := if negative then -(digitsValue digits : Int) else digitsValue digits
    if -2 ^ 31 ≤ value ∧ value < 2 ^ 31 then .ok value else .error .terminated

/-- The value that an `int` takes of a `size_t`; the sum of two `int`s wraps in the same way. -/
def toInt (n : Int) : Int := n.bmod (2 ^ 32)

/-- `std::string::find`, with `npos` when there is none. -/
def find (s : Text) (c : Char) : Nat := (s.idxOf? c).getD (2 ^ 64 - 1)

/-- `std::string::substr` from an `int` on. A negative one is a `size_t` beyond every length, which throws. -/
def substr (s : Text) (pos : Int) : Except Stop Text :=
  if pos < 0 ∨ s.length < pos then .error .terminated else .ok (s.drop pos.toNat)

/-- The count of `substr`; a negative one is a `size_t` that takes everything. -/
def prefixOf (s : Text) (count : Int) : Text := if count < 0 then s else s.take count.toNat

def validateTag (tag : Text) : Bool :=
  0 < tag.length && (tag.drop 1).all fun c => c = '_' || isalnum c

def validateIndex : Text → Bool
  | [c] => isdigit c
  | c :: idx => isdigit c && c ≠ '0' && idx.all isdigit
  | [] => false

/-- Any name string is acceptable. -/
def validateName (_ : Text) : Bool := true

def ParseTagIndex (tagIndex : Text) : Except Stop (Text × Int) :=
  if tagIndex = [] then .ok ([], -1)
  else
    let idx := toInt (find tagIndex ':')
    if idx = -1 then .ok (tagIndex, 0)
    else do
      let num ← substr tagIndex (toInt (idx + 1))
      .ok (if idx = 0 then [] else prefixOf tagIndex idx, ← stoi num)

/-- Parse a `TAG:INDEX:NAME` string into tokens. `TAG:NAME` leaves the index as the caller set it, which is to 0 at the
only caller. -/
def ParseTagIndexName (tagIndexName : Text) : Except Stop (Text × Int × Text) :=
  if tagIndexName = [] then .ok ([], -1, [])
  else
    let pos1 := toInt (find tagIndexName ':')
    if pos1 = -1 then .ok ([], -1, tagIndexName)
    else do
      let rest ← substr tagIndexName (toInt (pos1 + 1))
      let pos2 := toInt (find rest ':')
      let tag := prefixOf tagIndexName pos1
      if !validateTag tag then .error .failed
      else if pos2 = -1 then
        if !validateName rest then .error .failed else .ok (tag, 0, rest)
      else
        let pos2 := toInt (pos2 + (pos1 + 1))
        let num := prefixOf rest (toInt (pos2 - pos1 - 1))
        if !validateIndex num then .error .failed
        else do
          let index ← stoi num
          let name ← substr tagIndexName (toInt (pos2 + 1))
          if !validateName name then .error .failed else .ok (tag, index, name)

structure TagData where
  base : Nat
  count : Nat
deriving DecidableEq

structure TagMap where
  data : List (Text × TagData)
  names : List Text
deriving DecidableEq

/-- How many fields a tag has and the names that its indexes were given. -/
abbrev TagNames := Nat × List Text

/-- `operator[]` of an ordered map, then a change of the value. -/
def updateTag (tag : Text) (f : TagNames → TagNames) :
    List (Text × TagNames) → List (Text × TagNames)
  | [] => [(tag, f (0, []))]
  | (t, v) :: m =>
    if t = tag then (t, f v) :: m
    else if tag < t then (tag, f (0, [])) :: (t, v) :: m
    else (t, v) :: updateTag tag f m

/-- `resize` when the index is beyond the end, then the assignment. -/
def setName (names : List Text) (idx : Nat) (name : Text) : List Text :=
  (names ++ List.replicate (idx + 1 - names.length) []).set idx name

def addField (idx : Int) (name : Text) (v : TagNames) : TagNames :=
  (v.1 + 1, setName v.2 (if idx = -1 then v.1 else idx.toNat) name)

def collect : List Text → List (Text × TagNames) → Except Stop (List (Text × TagNames))
  | [], m => .ok m
  | field :: fields, m => do
    let (tag, idx, name) ← ParseTagIndexName field
    collect fields (updateTag tag (addField idx name) m)

def layout (curr : Nat) : List (Text × TagNames) → Except Stop (List (Text × TagData))
  | [] => .ok []
  | (tag, count, names) :: m =>
    if count ≠ names.length then .error .failed
    else do .ok ((tag, ⟨curr, count⟩) :: (← layout (curr + count) m))

def TagMap.Initialize (fields : List Text) : Except Stop TagMap := do
  let m ← collect fields []
  .ok ⟨← layout 0 m, m.flatMap fun item => item.2.2⟩

def TagMap.FindByTagIndex (m : TagMap) (tag : Text) (index : Int) : Int :=
  match m.data.lookup tag with
  | none => -1
  | some d => if (d.count : Int) ≤ index then -1 else d.base + index

/-- A null pointer when the tags do not parse. -/
def NewTagMap (fields : List Text) : Except Stop (Option TagMap) :=
  match TagMap.Initialize fields with
  | .ok m => .ok (some m)
  | .error .failed => .ok none
  | .error e => .error e

end Dni.Cpp.Utils
