import Dni.Lib.GoMap
import Mathlib.Data.List.DropRight

namespace Dni.Generator

open GoMap

abbrev Text := List Char

/-- `unicode.IsSpace`. -/
def isSpace (c : Char) : Bool :=
  c.toNat ∈ [9, 10, 11, 12, 13, 32, 0x85, 0xa0, 0x1680, 0x2028, 0x2029, 0x202f, 0x205f, 0x3000] ||
    (0x2000 ≤ c.toNat && c.toNat ≤ 0x200a)

/-- `strings.Fields`. -/
def stringsFields (s : Text) : List Text := (s.splitOnP isSpace).filter (· ≠ [])

/-- `strings.TrimSpace`. -/
def trimSpace (s : Text) : Text := (s.dropWhile isSpace).rdropWhile isSpace

/-- The text of a `%s` of a list of strings. -/
def fmtFields (fields : List Text) : Text := '[' :: ([' '].intercalate fields ++ [']'])

/-- One round of the two loops: a field that is not a key and a value is passed over. -/
def putPair (m : GoMap Text Text) (field : Text) : GoMap Text Text :=
  match field.splitOn '=' with
  | [k, v] => AList.insert k v m
  | _ => m

/-- The fields from `i` on, `n` of them; `none` is an index out of range. -/
def readPairs (fields : List Text) (i : Nat) (m : GoMap Text Text) : Nat → Option (GoMap Text Text)
  | 0 => some m
  | n + 1 => (fields[i]?).bind fun field => readPairs fields (i + 1) (putPair m field) n

/-- Whether `fields[i][0]` is the bracket; `none` is an index out of range. -/
def bracketAt (fields : List Text) (i : Nat) : Option Bool :=
  (fields[i]?).bind fun field => field.head?.map (· = '[')

structure CtFields where
  orig : GoMap Text Text
  reply : GoMap Text Text
  flag : Text

/-- `none` is an index out of range, `error` the error return. -/
def parseConntrack (fields : List Text) (start step : Nat) : Option (Except Text CtFields) :=
  let malformed : Text := "malformed ct fields: ".toList ++ fmtFields fields
  if fields.length ≤ start + step then some (.error malformed)
  else
    (readPairs fields start ∅ step).bind fun orig =>
      (bracketAt fields (start + step)).bind fun unreplied =>
        let i := if unreplied then start + step + 1 else start + step
        let flag := if unreplied then fields.getD (start + step) [] else []
        if fields.length ≤ i + step then some (.error malformed)
        else
          (readPairs fields i ∅ step).bind fun reply =>
            (bracketAt fields (i + step)).map fun assured =>
              .ok ⟨orig, reply, if assured then fields.getD (i + step) [] else flag⟩

/-- A missing key reads as the empty string. -/
def index (m : GoMap Text Text) (k : String) : Text := (m.lookup k.toList).getD []

def ctEntry (proto : Text) (ct : CtFields) (flag status : Text) : GoMap Text Text :=
  let m : GoMap Text Text := AList.insert "Proto".toList proto ∅
  let m := AList.insert "oSIP".toList (index ct.orig "src") m
  let m := AList.insert "oDIP".toList (index ct.orig "dst") m
  let m := AList.insert "rSIP".toList (index ct.reply "src") m
  let m := AList.insert "rDIP".toList (index ct.reply "dst") m
  let m := AList.insert "flag".toList flag m
  AList.insert "status".toList status m

/-- One line of the dump; the inner `none` is a line that is passed over. -/
def ctLine (text : Text) : Option (Option (GoMap Text Text)) :=
  if trimSpace text = [] then some none
  else
    let fields := stringsFields text
    (fields[0]?).bind fun proto =>
      if proto = "icmp".toList then
        (parseConntrack fields 3 5).map fun r =>
          match r with
          | .error _ => none
          | .ok ct => some (ctEntry proto ct [] [])
      else if proto = "tcp".toList then
        (parseConntrack fields 3 4).bind fun r =>
          match r with
          | .error _ => some none
          | .ok ct => (fields[3]?).map fun status => some (ctEntry proto ct ct.flag status)
      else some none

/-- The entries for the lines that the scanner yields. -/
def getCtInfoConntrack (lines : List Text) : Option (List (GoMap Text Text)) :=
  (lines.mapM ctLine).map (List.filterMap id)

/-- A word of a line. -/
structure Word where
  text : Text
  nonempty : text ≠ []
  plain : '=' ∉ text

/-- Four `key=value` fields for tcp. -/
structure TcpDir where
  src : Word
  dst : Word
  sport : Word
  dport : Word

structure IcmpDir where
  src : Word
  dst : Word
  type : Word
  code : Word
  id : Word

def pair (k : String) (v : Word) : Text := k.toList ++ '=' :: v.text

def TcpDir.fields (d : TcpDir) : List Text :=
  [pair "src" d.src, pair "dst" d.dst, pair "sport" d.sport, pair "dport" d.dport]

def IcmpDir.fields (d : IcmpDir) : List Text :=
  [pair "src" d.src, pair "dst" d.dst, pair "type" d.type, pair "code" d.code, pair "id" d.id]

/-- A line that the tool prints. The trailing fields are like `mark=0` and `use=1`. -/
inductive CtLine
  | tcp (number timeout state : Word) (orig : TcpDir) (unreplied : Bool) (reply : TcpDir) (assured : Bool)
    (trailing : List (Word × Word))
  | icmp (number timeout : Word) (orig : IcmpDir) (unreplied : Bool) (reply : IcmpDir) (assured : Bool)
    (trailing : List (Word × Word))

def token (b : Bool) (name : String) : List Text := if b then [name.toList] else []

def trail (trailing : List (Word × Word)) : List Text := trailing.map fun e => e.1.text ++ '=' :: e.2.text

def CtLine.fields : CtLine → List Text
  | tcp number timeout state orig unreplied reply assured trailing =>
    "tcp".toList :: number.text :: timeout.text :: state.text ::
      (orig.fields ++ (token unreplied "[UNREPLIED]" ++ (reply.fields ++ (token assured "[ASSURED]" ++ trail trailing))))
  | icmp number timeout orig unreplied reply assured trailing =>
    "icmp".toList :: number.text :: timeout.text ::
      (orig.fields ++ (token unreplied "[UNREPLIED]" ++ (reply.fields ++ (token assured "[ASSURED]" ++ trail trailing))))

/-- The texts of a line have its fields, with any white space around them. -/
def CtLine.Printed (l : CtLine) (text : Text) : Prop := stringsFields text = l.fields

instance (l : CtLine) (text : Text) : Decidable (l.Printed text) := inferInstanceAs (Decidable (_ = _))

/-- The flag of a line; the one after the reply counts when there are two. -/
def bracketed (unreplied assured : Bool) : Text :=
  if assured then "[ASSURED]".toList else if unreplied then "[UNREPLIED]".toList else []

/-- The entry has the addresses of the line and, for tcp, its flag. -/
def CtLine.Recovered (l : CtLine) (ct : GoMap Text Text) : Prop :=
  match l with
  | tcp _ _ _ orig unreplied reply assured _ =>
    index ct "oSIP" = orig.src.text ∧ index ct "oDIP" = orig.dst.text ∧ index ct "rSIP" = reply.src.text ∧
      index ct "rDIP" = reply.dst.text ∧ index ct "flag" = bracketed unreplied assured
  | icmp _ _ orig _ reply _ _ =>
    index ct "oSIP" = orig.src.text ∧ index ct "oDIP" = orig.dst.text ∧ index ct "rSIP" = reply.src.text ∧
      index ct "rDIP" = reply.dst.text

/-- A tcp line without a bracketed token; an icmp line that goes on after the fields of the reply. -/
def CtLine.InReach : CtLine → Prop
  | tcp _ _ _ _ unreplied _ assured _ => unreplied = false ∧ assured = false
  | icmp _ _ _ _ _ assured trailing => assured = true ∨ trailing ≠ []

section Fields

variable {fields : List Text}

theorem stringsSplit_pair (k : String) (v : Word) (hk : '=' ∉ k.toList) :
    (pair k v).splitOn '=' = [k.toList, v.text] := by
  have hfree : ∀ l ∈ [k.toList, v.text], '=' ∉ l := by
    intro l hl
    obtain hl | hl := List.mem_cons.mp hl
    · exact hl ▸ hk
    · exact List.mem_singleton.mp hl ▸ v.plain
  have h : (['='].intercalate [k.toList, v.text]).splitOn '=' = [k.toList, v.text] :=
    List.splitOn_intercalate '=' hfree (List.cons_ne_nil _ _)
  simpa [pair, List.intercalate] using h

@[simp] theorem putPair_pair (m : GoMap Text Text) (k : String) (v : Word) (hk : '=' ∉ k.toList) :
    putPair m (pair k v) = AList.insert k.toList v.text m := by
  rw [putPair, stringsSplit_pair k v hk]

/-- Within the fields a loop reads every one of its range. -/
theorem readPairs_eq {i n : Nat} (m : GoMap Text Text) (h : i + n ≤ fields.length) :
    readPairs fields i m n = some (((fields.drop i).take n).foldl putPair m) := by
  induction n generalizing i m with
  | zero => rfl
  | succ n ih =>
    have hi : i < fields.length := by omega
    rw [readPairs, List.getElem?_eq_getElem hi, Option.bind_some, ih _ (by omega), List.drop_eq_getElem_cons hi,
      List.take_succ_cons, List.foldl_cons]

theorem bracketAt_isSome (hne : ∀ f ∈ fields, f ≠ []) {i : Nat} (h : i < fields.length) :
    ∃ b, bracketAt fields i = some b := by
  have hf := hne _ (List.getElem_mem h)
  obtain ⟨c, f, hc⟩ := List.exists_cons_of_ne_nil hf
  refine ⟨c = '[', ?_⟩
  rw [bracketAt, List.getElem?_eq_getElem h, Option.bind_some, hc]
  rfl

/-- The second direction starts at the field after the bracket, or in its place. -/
def replyStart (i : Nat) (unreplied : Bool) : Nat := if unreplied then i + 1 else i

/-- Beyond the first length check the second one decides. -/
theorem parseConntrack_spec (hne : ∀ f ∈ fields, f ≠ []) {start step : Nat} {unreplied : Bool}
    (hu : bracketAt fields (start + step) = some unreplied) :
    (replyStart (start + step) unreplied + step < fields.length → ∃ flag, parseConntrack fields start step =
      some (.ok ⟨((fields.drop start).take step).foldl putPair ∅,
        ((fields.drop (replyStart (start + step) unreplied)).take step).foldl putPair ∅, flag⟩)) ∧
    (fields.length ≤ replyStart (start + step) unreplied + step →
      ∃ e, parseConntrack fields start step = some (.error e)) := by
  have hlen : start + step < fields.length := by
    by_contra hshort
    rw [bracketAt, List.getElem?_eq_none (Nat.not_lt.mp hshort)] at hu
    cases hu
  have hparse : parseConntrack fields start step = if fields.length ≤ replyStart (start + step) unreplied + step then
      some (.error ("malformed ct fields: ".toList ++ fmtFields fields))
    else (readPairs fields (replyStart (start + step) unreplied) ∅ step).bind fun reply =>
      (bracketAt fields (replyStart (start + step) unreplied + step)).map fun assured =>
        .ok ⟨((fields.drop start).take step).foldl putPair ∅, reply,
          if assured then fields.getD (replyStart (start + step) unreplied + step) []
          else if unreplied then fields.getD (start + step) [] else []⟩ := by
    rw [parseConntrack, if_neg (Nat.not_le.mpr hlen), readPairs_eq ∅ hlen.le, Option.bind_some, hu, Option.bind_some]
    rfl
  rw [hparse]
  apply And.intro
  · intro hlen'
    obtain ⟨assured, ha⟩ := bracketAt_isSome hne hlen'
    rw [if_neg (Nat.not_le.mpr hlen'), readPairs_eq ∅ hlen'.le, Option.bind_some, ha]
    exact ⟨_, rfl⟩
  · intro hshort
    rw [if_pos hshort]
    exact ⟨_, rfl⟩

/-- No list of fields that are not empty is indexed out of its range. -/
theorem parseConntrack_isSome (hne : ∀ f ∈ fields, f ≠ []) (start step : Nat) :
    (parseConntrack fields start step).isSome := by
  by_cases hlen : start + step < fields.length
  · obtain ⟨unreplied, hu⟩ := bracketAt_isSome hne hlen
    obtain ⟨hok, herror⟩ := parseConntrack_spec hne hu
    by_cases hlen' : replyStart (start + step) unreplied + step < fields.length
    · obtain ⟨flag, hp⟩ := hok hlen'
      rw [hp]
      rfl
    · obtain ⟨e, hp⟩ := herror (Nat.not_lt.mp hlen')
      rw [hp]
      rfl
  · rw [parseConntrack, if_pos (Nat.not_lt.mp hlen)]
    rfl

end Fields

theorem trimSpace_eq_nil_iff (s : Text) : trimSpace s = [] ↔ ∀ c ∈ s, isSpace c = true := by
  rw [trimSpace, List.rdropWhile_eq_nil_iff]
  induction s with
  | nil => simp
  | cons a s ih =>
    by_cases ha : isSpace a = true
    · rw [List.dropWhile_cons_of_pos ha, ih, List.forall_mem_cons]
      exact (and_iff_right ha).symm
    · rw [List.dropWhile_cons_of_neg ha]

theorem stringsFields_eq_nil_iff (s : Text) : stringsFields s = [] ↔ ∀ c ∈ s, isSpace c = true := by
  induction s with
  | nil => simp [stringsFields]
  | cons a s ih =>
    rw [List.forall_mem_cons, stringsFields, List.splitOnP_cons_eq_if_modifyHead]
    by_cases ha : isSpace a = true
    · rw [if_pos ha, List.filter_cons_of_neg (by simp), ← stringsFields, ih]
      exact (and_iff_right ha).symm
    · -- the first piece has the letter
      obtain ⟨piece, rest, hp⟩ := List.exists_cons_of_ne_nil (List.splitOnP_ne_nil isSpace s)
      rw [if_neg ha, hp, List.modifyHead_cons, List.filter_cons_of_pos (by simp)]
      apply iff_of_false
      · simp
      · exact fun h => ha h.1

/-- The test for a blank line finds the lines without a field. -/
theorem trimSpace_eq_nil (s : Text) : trimSpace s = [] ↔ stringsFields s = [] := by
  rw [trimSpace_eq_nil_iff, stringsFields_eq_nil_iff]

theorem stringsFields_nonempty (s : Text) : ∀ f ∈ stringsFields s, f ≠ [] := by
  intro f hf
  simpa using (List.mem_filter.mp hf).2

/-- Every line is read without an index out of range. -/
theorem ctLine_isSome (text : Text) : (ctLine text).isSome := by
  unfold ctLine
  dsimp only
  split
  next => rfl
  next hblank =>
    have hfields : stringsFields text ≠ [] := fun h => hblank ((trimSpace_eq_nil text).mpr h)
    have hne := stringsFields_nonempty text
    generalize stringsFields text = fields at hfields hne
    obtain ⟨proto, rest, hcons⟩ := List.exists_cons_of_ne_nil hfields
    rw [hcons, List.getElem?_cons_zero, Option.bind_some, ← hcons]
    split
    next =>
      rw [Option.isSome_map]
      exact parseConntrack_isSome hne 3 5
    next =>
      split
      next =>
        obtain ⟨r, hr⟩ := Option.isSome_iff_exists.mp (parseConntrack_isSome hne 3 4)
        rw [hr, Option.bind_some]
        cases r with
        | error e => rfl
        | ok ct =>
          have hlen : 3 < fields.length := by
            by_contra hshort
            rw [parseConntrack, if_pos (by omega)] at hr
            cases hr
          rw [List.getElem?_eq_getElem hlen]
          rfl
      next => rfl

theorem index_insert (m : GoMap Text Text) (k : String) (v : Text) : index (AList.insert k.toList v m) k = v := by
  rw [index, AList.lookup_insert, Option.getD_some]

theorem index_insert_ne {k k' : String} (h : k ≠ k') (m : GoMap Text Text) (v : Text) :
    index (AList.insert k.toList v m) k' = index m k' := by
  have hl : k'.toList ≠ k.toList := fun he => h (String.toList_inj.mp he.symm)
  rw [index, AList.lookup_insert_ne hl, index]

/-- What the two loops make of the addresses of a line. -/
theorem index_putPair (m : GoMap Text Text) {k : String} (hk : '=' ∉ k.toList) (v : Word) :
    index (putPair m (pair k v)) k = v.text := by
  rw [putPair_pair m k v hk, index_insert]

theorem index_putPair_ne (m : GoMap Text Text) {k k' : String} (hk : '=' ∉ k.toList) (hne : k ≠ k') (v : Word) :
    index (putPair m (pair k v)) k' = index m k' := by
  rw [putPair_pair m k v hk, index_insert_ne hne]

/-- For tcp the loops start one field early, and neither look for a flag finds one. -/
theorem parseConntrack_tcp (number timeout state : Word) (orig : TcpDir) (unreplied : Bool) (reply : TcpDir)
    (assured : Bool) (trailing : List (Word × Word)) :
    ∃ ct, parseConntrack (CtLine.tcp number timeout state orig unreplied reply assured trailing).fields 3 4 = some (.ok ct) ∧
      index ct.orig "src" = orig.src.text ∧ index ct.orig "dst" = orig.dst.text ∧
      index ct.reply "src" = reply.src.text ∧ index ct.reply "dst" = reply.dst.text ∧ ct.flag = [] := by
  have hsport : ∀ m v k, "sport" ≠ k → index (putPair m (pair "sport" v)) k = index m k :=
    fun m v k hne => index_putPair_ne m (by decide) hne v
  have hdst : ∀ m v k, "dst" ≠ k → index (putPair m (pair "dst" v)) k = index m k :=
    fun m v k hne => index_putPair_ne m (by decide) hne v
  have hbracket : '=' ∉ "[UNREPLIED]".toList := by decide
  cases unreplied with
  | false =>
    refine ⟨⟨[state.text, pair "src" orig.src, pair "dst" orig.dst, pair "sport" orig.sport].foldl putPair ∅,
      [pair "dport" orig.dport, pair "src" reply.src, pair "dst" reply.dst, pair "sport" reply.sport].foldl putPair ∅, []⟩,
      rfl, ?_⟩
    simp only [List.foldl_cons, List.foldl_nil]
    refine ⟨?_, ?_, ?_, ?_, trivial⟩
    · rw [hsport _ _ _ (by decide), hdst _ _ _ (by decide), index_putPair _ (by decide)]
    · rw [hsport _ _ _ (by decide), index_putPair _ (by decide)]
    · rw [hsport _ _ _ (by decide), hdst _ _ _ (by decide), index_putPair _ (by decide)]
    · rw [hsport _ _ _ (by decide), index_putPair _ (by decide)]
  | true =>
    refine ⟨⟨[state.text, pair "src" orig.src, pair "dst" orig.dst, pair "sport" orig.sport].foldl putPair ∅,
      [pair "dport" orig.dport, "[UNREPLIED]".toList, pair "src" reply.src, pair "dst" reply.dst].foldl putPair ∅, []⟩,
      rfl, ?_⟩
    simp only [List.foldl_cons, List.foldl_nil]
    refine ⟨?_, ?_, ?_, ?_, trivial⟩
    · rw [hsport _ _ _ (by decide), hdst _ _ _ (by decide), index_putPair _ (by decide)]
    · rw [hsport _ _ _ (by decide), index_putPair _ (by decide)]
    · rw [hdst _ _ _ (by decide), index_putPair _ (by decide)]
    · rw [index_putPair _ (by decide)]

/-- For icmp the loops read the two directions, when something follows the second one. -/
theorem parseConntrack_icmp (number timeout : Word) (orig : IcmpDir) (unreplied : Bool) (reply : IcmpDir)
    (assured : Bool) (trailing : List (Word × Word)) {fields : List Text} (hne : ∀ f ∈ fields, f ≠ [])
    (hl : fields = (CtLine.icmp number timeout orig unreplied reply assured trailing).fields) :
    (assured = true ∨ trailing ≠ [] → ∃ ct, parseConntrack fields 3 5 = some (.ok ct) ∧
      index ct.orig "src" = orig.src.text ∧ index ct.orig "dst" = orig.dst.text ∧
      index ct.reply "src" = reply.src.text ∧ index ct.reply "dst" = reply.dst.text) ∧
    (¬ (assured = true ∨ trailing ≠ []) → ∃ e, parseConntrack fields 3 5 = some (.error e)) := by
  have hdir : ∀ d : IcmpDir, index (d.fields.foldl putPair ∅) "src" = d.src.text ∧
      index (d.fields.foldl putPair ∅) "dst" = d.dst.text := by
    intro d
    have hafter : ∀ m k, "type" ≠ k → "code" ≠ k → "id" ≠ k →
        index (putPair (putPair (putPair m (pair "type" d.type)) (pair "code" d.code)) (pair "id" d.id)) k = index m k := by
      intro m k htype hcode hid
      rw [index_putPair_ne _ (by decide) hid, index_putPair_ne _ (by decide) hcode, index_putPair_ne _ (by decide) htype]
    simp only [IcmpDir.fields, List.foldl_cons, List.foldl_nil]
    apply And.intro
    · rw [hafter _ _ (by decide) (by decide) (by decide), index_putPair_ne _ (by decide) (by decide),
        index_putPair _ (by decide)]
    · rw [hafter _ _ (by decide) (by decide) (by decide), index_putPair _ (by decide)]
  have hu : bracketAt fields (3 + 5) = some unreplied := by
    rw [hl]
    cases unreplied <;> rfl
  have hlength : replyStart (3 + 5) unreplied + 5 < fields.length ↔ assured = true ∨ trailing ≠ [] := by
    rw [hl]
    cases unreplied <;> cases assured <;> cases trailing <;>
      simp [CtLine.fields, replyStart, token, trail, IcmpDir.fields]
  have horig : (fields.drop 3).take 5 = orig.fields := by
    rw [hl]
    rfl
  have hreply : (fields.drop (replyStart (3 + 5) unreplied)).take 5 = reply.fields := by
    rw [hl]
    cases unreplied <;> rfl
  obtain ⟨hok, herror⟩ := parseConntrack_spec hne hu
  apply And.intro
  · intro hmore
    obtain ⟨flag, hp⟩ := hok (hlength.mpr hmore)
    refine ⟨_, hp, ?_⟩
    dsimp only
    rw [horig, hreply]
    exact ⟨(hdir orig).1, (hdir orig).2, (hdir reply).1, (hdir reply).2⟩
  · intro hmore
    exact herror (Nat.not_lt.mp fun h => hmore (hlength.mp h))

@[simp] theorem index_ctEntry_flag (proto : Text) (ct : CtFields) (flag status : Text) :
    index (ctEntry proto ct flag status) "flag" = flag := by
  rw [ctEntry, index_insert_ne (by decide), index_insert]

theorem index_ctEntry (proto : Text) (ct : CtFields) (flag status : Text) :
    index (ctEntry proto ct flag status) "oSIP" = index ct.orig "src" ∧
      index (ctEntry proto ct flag status) "oDIP" = index ct.orig "dst" ∧
      index (ctEntry proto ct flag status) "rSIP" = index ct.reply "src" ∧
      index (ctEntry proto ct flag status) "rDIP" = index ct.reply "dst" := by
  have hlast : ∀ (m : GoMap Text Text) (k : String), "flag" ≠ k → "status" ≠ k →
      index (AList.insert "status".toList status (AList.insert "flag".toList flag m)) k = index m k := by
    intro m k hflag hstatus
    rw [index_insert_ne hstatus, index_insert_ne hflag]
  unfold ctEntry
  dsimp only
  refine ⟨?_, ?_, ?_, ?_⟩
  · rw [hlast _ _ (by decide) (by decide), index_insert_ne (by decide), index_insert_ne (by decide),
      index_insert_ne (by decide), index_insert]
  · rw [hlast _ _ (by decide) (by decide), index_insert_ne (by decide), index_insert_ne (by decide), index_insert]
  · rw [hlast _ _ (by decide) (by decide), index_insert_ne (by decide), index_insert]
  · rw [hlast _ _ (by decide) (by decide), index_insert]

/-- One printed line: in reach it is recovered, else it is passed over or its entry is wrong. -/
theorem ctLine_spec {l : CtLine} {text : Text} (h : l.Printed text) :
    l.InReach ∧ (∃ ct, ctLine text = some (some ct) ∧ l.Recovered ct) ∨
      ¬ l.InReach ∧ (ctLine text = some none ∨ ∃ ct, ctLine text = some (some ct) ∧ ¬ l.Recovered ct) := by
  have hne := stringsFields_nonempty text
  have hblank : trimSpace text ≠ [] := by
    rw [Ne, trimSpace_eq_nil, h]
    cases l <;> exact List.cons_ne_nil _ _
  cases l with
  | tcp number timeout state orig unreplied reply assured trailing =>
    obtain ⟨ct, hp, hos, hod, hrs, hrd, hflag⟩ :=
      parseConntrack_tcp number timeout state orig unreplied reply assured trailing
    have hline : ctLine text = some (some (ctEntry "tcp".toList ct ct.flag state.text)) := by
      unfold ctLine
      rw [if_neg hblank, h]
      dsimp only
      rw [hp]
      rfl
    obtain ⟨heos, heod, hers, herd⟩ := index_ctEntry "tcp".toList ct ct.flag state.text
    have hrec : (CtLine.tcp number timeout state orig unreplied reply assured trailing).Recovered
        (ctEntry "tcp".toList ct ct.flag state.text) ↔ bracketed unreplied assured = [] := by
      rw [CtLine.Recovered, heos, heod, hers, herd, index_ctEntry_flag, hflag]
      exact ⟨fun hr => hr.2.2.2.2.symm, fun hb => ⟨hos, hod, hrs, hrd, hb.symm⟩⟩
    have hreach : bracketed unreplied assured = [] ↔ unreplied = false ∧ assured = false := by
      cases unreplied <;> cases assured <;> decide
    by_cases hin : unreplied = false ∧ assured = false
    · exact Or.inl ⟨hin, _, hline, hrec.mpr (hreach.mpr hin)⟩
    · exact Or.inr ⟨hin, Or.inr ⟨_, hline, fun hr => hin (hreach.mp (hrec.mp hr))⟩⟩
  | icmp number timeout orig unreplied reply assured trailing =>
    obtain ⟨hok, herror⟩ := parseConntrack_icmp number timeout orig unreplied reply assured trailing hne h
    have hline : ctLine text = (parseConntrack (stringsFields text) 3 5).map fun r =>
        match r with
        | .error _ => none
        | .ok ct => some (ctEntry "icmp".toList ct [] []) := by
      unfold ctLine
      rw [if_neg hblank, h]
      rfl
    by_cases hin : assured = true ∨ trailing ≠ []
    · obtain ⟨ct, hp, hos, hod, hrs, hrd⟩ := hok hin
      obtain ⟨heos, heod, hers, herd⟩ := index_ctEntry "icmp".toList ct [] []
      rw [hp] at hline
      refine Or.inl ⟨hin, _, hline, ?_⟩
      rw [CtLine.Recovered, heos, heod, hers, herd]
      exact ⟨hos, hod, hrs, hrd⟩
    · obtain ⟨e, hp⟩ := herror hin
      rw [hp] at hline
      exact Or.inr ⟨hin, Or.inl hline⟩

theorem getCtInfoConntrack_cons (text : Text) (texts : List Text) :
    getCtInfoConntrack (text :: texts) =
      (ctLine text).bind fun r => (getCtInfoConntrack texts).map fun cts => r.toList ++ cts := by
  rw [getCtInfoConntrack, getCtInfoConntrack, List.mapM_cons]
  obtain ⟨r, hr⟩ := Option.isSome_iff_exists.mp (ctLine_isSome text)
  rw [hr]
  cases texts.mapM ctLine with
  | none => rfl
  | some rs => cases r <;> rfl

/-- Every dump is read to its end, with an entry a line at most. -/
theorem getCtInfoConntrack_total (texts : List Text) :
    ∃ cts, getCtInfoConntrack texts = some cts ∧ cts.length ≤ texts.length := by
  induction texts with
  | nil => exact ⟨[], rfl, le_rfl⟩
  | cons text texts ih =>
    obtain ⟨r, hr⟩ := Option.isSome_iff_exists.mp (ctLine_isSome text)
    obtain ⟨cts, hcts, hlen⟩ := ih
    refine ⟨r.toList ++ cts, ?_, ?_⟩
    · rw [getCtInfoConntrack_cons, hr, hcts]
      rfl
    · have hone : r.toList.length ≤ 1 := Option.length_toList_le
      rw [List.length_append, List.length_cons]
      omega

/-- The dump is never indexed out of range, and a dump of printed lines is recovered line by line exactly when no
tcp line has a flag and no icmp line ends with its reply. -/
theorem getCtInfoConntrack_recovers_iff (fields : List Text) (start step : Nat) (hne : ∀ f ∈ fields, f ≠ [])
    (ls : List CtLine) (texts : List Text) (hp : List.Forall₂ CtLine.Printed ls texts) :
    (parseConntrack fields start step).isSome ∧
      ((∃ cts, getCtInfoConntrack texts = some cts ∧ List.Forall₂ CtLine.Recovered ls cts) ↔ ∀ l ∈ ls, l.InReach) := by
  apply And.intro
  · exact parseConntrack_isSome hne start step
  · induction hp with
    | nil => exact ⟨fun _ l hl => absurd hl List.not_mem_nil, fun _ => ⟨[], rfl, .nil⟩⟩
    | @cons l text ls texts hl hrest ih =>
      obtain ⟨cts, hcts, hlen⟩ := getCtInfoConntrack_total texts
      have hcons : ∀ r, ctLine text = some r → getCtInfoConntrack (text :: texts) = some (r.toList ++ cts) := by
        intro r hr
        rw [getCtInfoConntrack_cons, hr, hcts]
        rfl
      rw [List.forall_mem_cons, ← ih, hcts]
      obtain ⟨hin, ct, hline, hrec⟩ | ⟨hin, hskip | ⟨ct, hline, hrec⟩⟩ := ctLine_spec hl
      · rw [hcons _ hline]
        apply Iff.intro
        · intro ⟨cts', he, hall⟩
          cases he
          cases hall with
          | cons hct hall => exact ⟨hin, cts, rfl, hall⟩
        · intro ⟨_, cts', he, hall⟩
          cases he
          exact ⟨_, rfl, .cons hrec hall⟩
      · -- a line too few for one entry each
        rw [hcons _ hskip]
        apply iff_of_false
        · intro ⟨cts', he, hall⟩
          cases he
          have hsame := hall.length_eq
          have hsame' := hrest.length_eq
          rw [Option.toList_none, List.nil_append, List.length_cons] at hsame
          omega
        · exact fun h => hin h.1
      · rw [hcons _ hline]
        apply iff_of_false
        · intro ⟨cts', he, hall⟩
          cases he
          cases hall with
          | cons hct hall => exact hrec hct
        · exact fun h => hin h.1

/-- The tool's line for an established connection. -/
def establishedLine (assured : Bool) : CtLine :=
  .tcp ⟨['6'], by decide, by decide⟩ ⟨['9'], by decide, by decide⟩ ⟨"ESTABLISHED".toList, by decide, by decide⟩
    ⟨⟨"10.0.0.1".toList, by decide, by decide⟩, ⟨"10.0.0.2".toList, by decide, by decide⟩,
      ⟨"4242".toList, by decide, by decide⟩, ⟨"22".toList, by decide, by decide⟩⟩ false
    ⟨⟨"10.0.0.2".toList, by decide, by decide⟩, ⟨"10.0.0.1".toList, by decide, by decide⟩,
      ⟨"22".toList, by decide, by decide⟩, ⟨"4242".toList, by decide, by decide⟩⟩ assured
    [(⟨"use".toList, by decide, by decide⟩, ⟨"1".toList, by decide, by decide⟩)]

def establishedText (flag : String) : Text :=
  ("tcp      6 9 ESTABLISHED src=10.0.0.1 dst=10.0.0.2 sport=4242 dport=22 " ++
    "src=10.0.0.2 dst=10.0.0.1 sport=22 dport=4242 " ++ flag ++ "use=1").toList

theorem getCtInfoConntrack_recovers_iff_established :
    (parseConntrack [['6']] 3 4).isSome ∧ ((∃ cts, getCtInfoConntrack [establishedText ""] = some cts ∧
      List.Forall₂ CtLine.Recovered [establishedLine false] cts) ↔ ∀ l ∈ [establishedLine false], l.InReach) :=
  getCtInfoConntrack_recovers_iff [['6']] 3 4 (by decide) [establishedLine false] [establishedText ""]
    (.cons (by decide +kernel) .nil)

/-- The flag of an established connection is lost. -/
theorem getCtInfoConntrack_loses_flag : (establishedLine true).Printed (establishedText "[ASSURED] ") ∧
    ¬ ∃ cts, getCtInfoConntrack [establishedText "[ASSURED] "] = some cts ∧
      List.Forall₂ CtLine.Recovered [establishedLine true] cts := by
  have hp : (establishedLine true).Printed (establishedText "[ASSURED] ") := by decide +kernel
  refine ⟨hp, ?_⟩
  intro ⟨cts, he, hall⟩
  rw [getCtInfoConntrack_cons] at he
  obtain ⟨hin, -⟩ | ⟨-, hskip | ⟨ct, hline, hrec⟩⟩ := ctLine_spec hp
  · exact Bool.false_ne_true hin.2.symm
  · rw [hskip] at he
    cases he
    exact nomatch hall
  · rw [hline] at he
    cases he
    cases hall with
    | cons hct _ => exact hrec hct

end Dni.Generator
