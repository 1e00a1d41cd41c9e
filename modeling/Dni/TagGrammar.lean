import Dni.TagMap
import Mathlib.Data.Nat.Basic
import Mathlib.Data.List.TakeWhile

namespace Dni.Cpp.Utils

/-- A letter, a digit or an underscore. -/
def isTagChar (c : Char) : Bool := c = '_' || isalnum c

/-- A string of letters, digits and underscores that does not start with a digit. -/
structure IsTag (tag : Text) : Prop where
  nonempty : tag ≠ []
  chars : ∀ c ∈ tag, isTagChar c = true
  first : ∀ c, tag.head? = some c → isdigit c = false

/-- A decimal numeral without leading zeros that fits an `int`. -/
structure IsIndex (num : Text) : Prop where
  nonempty : num ≠ []
  digits : ∀ c ∈ num, isdigit c = true
  leading : num.head? = some '0' → num = ['0']
  fits : digitsValue num < 2 ^ 31

/-- The documented inputs and what they parse to. -/
inductive Documented : Text → Text → Int → Text → Prop
  | full {tag num name : Text} : IsTag tag → IsIndex num →
    Documented (tag ++ ':' :: (num ++ ':' :: name)) tag (digitsValue num) name
  | index {num name : Text} : IsIndex num → Documented (':' :: (num ++ ':' :: name)) [] (digitsValue num) name
  | tagged {tag name : Text} : IsTag tag → ':' ∉ name → ¬ IsIndex name → Documented (tag ++ ':' :: name) tag 0 name
  | name {name : Text} : ':' ∉ name → Documented name [] (-1) name

/-- A call does not throw, and it accepts the documented inputs and nothing else. -/
structure ParsedRight (s : Text) : Prop where
  returns : ∀ e, ParseTagIndexName s = .error e → e = .failed
  accepts : s ≠ [] → ((∃ r, ParseTagIndexName s = .ok r) ↔ ∃ tag index name, Documented s tag index name)
  triple : s ≠ [] → ∀ tag index name, ParseTagIndexName s = .ok (tag, index, name) → Documented s tag index name

/-- The text before the first colon and the one behind it, if there is a colon. -/
def splitColon : Text → Text × Option Text
  | [] => ([], none)
  | c :: s => if c = ':' then ([], some s) else
    let (before, after) := splitColon s
    (c :: before, after)

/-- The inputs that are parsed as they should be. The positions of the colons are `int`s, so a colon after the first
2 ^ 31 characters is looked for at its position modulo 2 ^ 32. -/
def TextParses (s : Text) : Prop :=
  match splitColon s with
  | (_, none) => True
  | (tag, some rest) =>
    if 2 ^ 31 ≤ tag.length + 1 then
      2 ^ 32 ≤ tag.length ∧ tag.length % 2 ^ 32 < 2 ^ 31 - 1 ∧ ¬ validateTag (tag.take (tag.length % 2 ^ 32)) = true ∧
        ¬ ∃ tag index name, Documented s tag index name
    else
      match splitColon rest with
      | (_, none) => ¬ validateTag tag = true ∨ IsTag tag ∧ ¬ IsIndex rest
      | (num, some _) =>
        if tag = [] then ¬ IsIndex num
        else ¬ validateTag tag = true ∨
          num.length % 2 ^ 32 ≠ 2 ^ 32 - 1 ∧ ¬ validateIndex (prefixOf rest (toInt num.length)) = true ∨
          IsTag tag ∧ IsIndex num ∧ tag.length + num.length + 2 < 2 ^ 31

section Split

variable {a b : Text}

theorem splitColon_append (ha : ':' ∉ a) (b : Text) : splitColon (a ++ ':' :: b) = (a, some b) := by
  induction a with
  | nil => rfl
  | cons c a ih =>
    rw [List.mem_cons, not_or] at ha
    rw [List.cons_append, splitColon, if_neg (Ne.symm ha.1), ih ha.2]

theorem splitColon_none (ha : ':' ∉ a) : splitColon a = (a, none) := by
  induction a with
  | nil => rfl
  | cons c a ih =>
    rw [List.mem_cons, not_or] at ha
    rw [splitColon, if_neg (Ne.symm ha.1), ih ha.2]

theorem append_colon_inj {x y : Text} (ha : ':' ∉ a) (hb : ':' ∉ b) (h : a ++ ':' :: x = b ++ ':' :: y) :
    a = b ∧ x = y := by
  have hs := congrArg splitColon h
  rw [splitColon_append ha, splitColon_append hb] at hs
  cases hs
  exact ⟨rfl, rfl⟩

theorem find_append (ha : ':' ∉ a) (b : Text) : find (a ++ ':' :: b) ':' = a.length := by
  have hidx : (a ++ ':' :: b).idxOf? ':' = some a.length := by
    induction a with
    | nil => rfl
    | cons c a ih =>
      rw [List.mem_cons, not_or] at ha
      rw [List.cons_append, List.idxOf?_cons, ih ha.2]
      simp [Ne.symm ha.1]
  rw [find, hidx]
  rfl

theorem find_none (ha : ':' ∉ a) : toInt (find a ':') = -1 := by
  have hidx : a.idxOf? ':' = none := List.idxOf?_eq_none_iff.mpr ha
  rw [find, hidx]
  decide

end Split

section Grammar

theorem IsTag.no_colon {tag : Text} (h : IsTag tag) : ':' ∉ tag := fun hc => absurd (h.chars _ hc) (by decide)

theorem IsIndex.no_colon {num : Text} (h : IsIndex num) : ':' ∉ num := fun hc => absurd (h.digits _ hc) (by decide)

theorem IsTag.validate {tag : Text} (h : IsTag tag) : validateTag tag = true := by
  have hpos := List.length_pos_of_ne_nil h.nonempty
  rw [validateTag, Bool.and_eq_true]
  refine ⟨decide_eq_true hpos, List.all_eq_true.mpr ?_⟩
  intro c hc
  exact h.chars c (List.mem_of_mem_drop hc)

theorem isIndex_iff {num : Text} : IsIndex num ↔ validateIndex num = true ∧ digitsValue num < 2 ^ 31 := by
  match num with
  | [] => exact ⟨fun h => absurd rfl h.nonempty, fun h => absurd h.1 Bool.false_ne_true⟩
  | [c] =>
    apply Iff.intro
    · intro h
      exact ⟨h.digits c List.mem_cons_self, h.fits⟩
    · intro ⟨hd, hfits⟩
      refine ⟨List.cons_ne_nil _ _, ?_, ?_, hfits⟩
      · intro d hc
        exact List.mem_singleton.mp hc ▸ hd
      · intro h0
        cases h0
        rfl
  | c :: d :: num =>
    have hvalid : validateIndex (c :: d :: num) = (isdigit c && decide (c ≠ '0') && (d :: num).all isdigit) := rfl
    rw [hvalid, Bool.and_eq_true, Bool.and_eq_true, decide_eq_true_iff, List.all_eq_true]
    apply Iff.intro
    · intro h
      refine ⟨⟨⟨h.digits c List.mem_cons_self, ?_⟩, ?_⟩, h.fits⟩
      · intro h0
        have := h.leading (by rw [h0]; rfl)
        simp at this
      · intro e he
        exact h.digits e (List.mem_cons_of_mem _ he)
    · intro ⟨⟨⟨hc, h0⟩, hall⟩, hfits⟩
      refine ⟨List.cons_ne_nil _ _, ?_, ?_, hfits⟩
      · intro e he
        obtain heq | hmem := List.mem_cons.mp he
        · exact heq ▸ hc
        · exact hall e hmem
      · intro hlead
        exact absurd (Option.some.inj hlead) h0

theorem validateIndex_digits {num : Text} (h : validateIndex num = true) : num ≠ [] ∧ ∀ c ∈ num, isdigit c = true := by
  match num with
  | [] => exact absurd h Bool.false_ne_true
  | [c] => exact ⟨List.cons_ne_nil _ _, fun d hd => List.mem_singleton.mp hd ▸ h⟩
  | c :: d :: num =>
    have hvalid : validateIndex (c :: d :: num) = (isdigit c && decide (c ≠ '0') && (d :: num).all isdigit) := rfl
    rw [hvalid, Bool.and_eq_true, Bool.and_eq_true, List.all_eq_true] at h
    refine ⟨List.cons_ne_nil _ _, ?_⟩
    intro e he
    obtain heq | hmem := List.mem_cons.mp he
    · exact heq ▸ h.1.1
    · exact h.2 e hmem

theorem isdigit_bounds {c : Char} (h : isdigit c = true) : 48 ≤ c.toNat ∧ c.toNat ≤ 57 := by
  rw [isdigit, Bool.and_eq_true, decide_eq_true_iff, decide_eq_true_iff] at h
  exact ⟨h.1, h.2⟩

/-- What `stoi` makes of an index. -/
theorem stoi_index {num : Text} (h : validateIndex num = true) :
    stoi num = if digitsValue num < 2 ^ 31 then .ok (digitsValue num : Int) else .error .terminated := by
  obtain ⟨hne, hdigits⟩ := validateIndex_digits h
  have htake : num.takeWhile isdigit = num := List.takeWhile_eq_self_iff.mpr hdigits
  obtain ⟨c, ds, hnum⟩ := List.exists_cons_of_ne_nil hne
  have hc := isdigit_bounds (hdigits c (hnum ▸ List.mem_cons_self))
  have hspace : num.dropWhile isspace = num := by
    rw [hnum, List.dropWhile_cons_of_neg]
    rw [isspace, Bool.or_eq_true, Bool.and_eq_true, decide_eq_true_iff, decide_eq_true_iff, decide_eq_true_iff]
    intro hs
    obtain hblank | ⟨-, hle⟩ := hs
    · rw [hblank] at hc
      exact absurd hc (by decide)
    · omega
  unfold stoi
  rw [hspace]
  subst hnum
  dsimp only
  split
  next heq =>
    cases heq
    exact absurd hc (by decide)
  next heq =>
    cases heq
    exact absurd hc (by decide)
  next =>
    dsimp only
    rw [htake, if_neg hne, if_neg Bool.false_ne_true]
    by_cases hfits : digitsValue (c :: ds) < 2 ^ 31
    · rw [if_pos hfits, if_pos (by omega)]
    · rw [if_neg hfits, if_neg (by omega)]

/-- A numeral without a leading zero is at least the power of ten of its length. -/
theorem digitsValue_ge (ds : Text) (n : Nat) :
    n * 10 ^ ds.length ≤ ds.foldl (fun n d => 10 * n + (d.toNat - '0'.toNat)) n := by
  induction ds generalizing n with
  | nil => simp
  | cons d ds ih =>
    have hstep := ih (10 * n + (d.toNat - '0'.toNat))
    have hle : n * 10 ^ (ds.length + 1) ≤ (10 * n + (d.toNat - '0'.toNat)) * 10 ^ ds.length := by
      rw [Nat.pow_succ', ← Nat.mul_assoc]
      exact Nat.mul_le_mul_right _ (by omega)
    exact Nat.le_trans hle hstep

theorem IsIndex.length_le {num : Text} (h : IsIndex num) : num.length ≤ 10 := by
  obtain ⟨c, ds, hnum⟩ := List.exists_cons_of_ne_nil h.nonempty
  subst hnum
  have hc := isdigit_bounds (h.digits c List.mem_cons_self)
  by_cases h0 : c = '0'
  · have hone := h.leading (by rw [h0]; rfl)
    rw [hone]
    decide
  · have hpos : 1 ≤ 10 * 0 + (c.toNat - '0'.toNat) := by
      have hne : c.toNat ≠ 48 := fun he => h0 (Char.toNat_inj.mp he)
      have hzero : '0'.toNat = 48 := rfl
      omega
    have hge : 10 ^ ds.length ≤ digitsValue (c :: ds) :=
      Nat.le_trans (Nat.le_mul_of_pos_left _ hpos) (digitsValue_ge ds _)
    have hlt : 10 ^ ds.length < 10 ^ 10 := Nat.lt_of_le_of_lt hge (Nat.lt_trans h.fits (by decide))
    have hlen := (Nat.pow_lt_pow_iff_right (by decide : 1 < 10)).mp hlt
    rw [List.length_cons]
    omega

end Grammar

section Shapes

variable {tag num rest t n : Text} {i : Int}

theorem documented_two (ht : ':' ∉ tag) (hr : ':' ∉ rest) :
    Documented (tag ++ ':' :: rest) t i n ↔ IsTag tag ∧ ¬ IsIndex rest ∧ t = tag ∧ i = 0 ∧ n = rest := by
  apply Iff.intro
  · intro hd
    generalize hs : tag ++ ':' :: rest = s at hd
    cases hd with
    | @full tag' num name htag hnum =>
      obtain ⟨_, hrest⟩ := append_colon_inj ht htag.no_colon hs
      exact absurd (hrest ▸ List.mem_append_right _ List.mem_cons_self) hr
    | @index num name hnum =>
      obtain ⟨_, hrest⟩ := append_colon_inj ht (List.not_mem_nil) (b := []) hs
      exact absurd (hrest ▸ List.mem_append_right _ List.mem_cons_self) hr
    | @tagged tag' name htag hname hidx =>
      obtain ⟨heq, hrest⟩ := append_colon_inj ht htag.no_colon hs
      subst heq hrest
      exact ⟨htag, hidx, rfl, rfl, rfl⟩
    | name hname => exact absurd (hs ▸ List.mem_append_right _ List.mem_cons_self) hname
  · intro ⟨htag, hidx, ht', hi, hn⟩
    subst ht' hi hn
    exact .tagged htag hr hidx

theorem documented_three {name : Text} (ht : ':' ∉ tag) (hn : ':' ∉ num) :
    Documented (tag ++ ':' :: (num ++ ':' :: name)) t i n ↔
      (IsTag tag ∨ tag = []) ∧ IsIndex num ∧ t = tag ∧ i = digitsValue num ∧ n = name := by
  apply Iff.intro
  · intro hd
    generalize hs : tag ++ ':' :: (num ++ ':' :: name) = s at hd
    cases hd with
    | @full tag' num' name' htag hnum =>
      obtain ⟨heq, hrest⟩ := append_colon_inj ht htag.no_colon hs
      obtain ⟨heq', hname⟩ := append_colon_inj hn hnum.no_colon hrest
      subst heq heq' hname
      exact ⟨Or.inl htag, hnum, rfl, rfl, rfl⟩
    | @index num' name' hnum =>
      obtain ⟨heq, hrest⟩ := append_colon_inj ht (List.not_mem_nil) (b := []) hs
      obtain ⟨heq', hname⟩ := append_colon_inj hn hnum.no_colon hrest
      subst heq heq' hname
      exact ⟨Or.inr rfl, hnum, rfl, rfl, rfl⟩
    | @tagged tag' name' htag hname hidx =>
      obtain ⟨_, hrest⟩ := append_colon_inj ht htag.no_colon hs
      exact absurd (hrest ▸ List.mem_append_right _ List.mem_cons_self) hname
    | name hname => exact absurd (hs ▸ List.mem_append_right _ List.mem_cons_self) hname
  · intro ⟨htag, hnum, ht', hi, hn'⟩
    subst ht' hi hn'
    obtain htag | htag := htag
    · exact .full htag hnum
    · subst htag
      exact .index hnum

/-- Only a name alone has an index below zero. -/
theorem Documented.no_colon {s : Text} (h : Documented s t i n) (hi : i < 0) : ':' ∉ s := by
  cases h with
  | full => omega
  | index => omega
  | tagged => omega
  | name hn => exact hn

/-- The tag of an input with a colon is empty or stands before the first colon. -/
theorem Documented.tag_eq (ht : ':' ∉ tag) (h : Documented (tag ++ ':' :: rest) t i n) : t = [] ∨ t = tag := by
  generalize hs : tag ++ ':' :: rest = s at h
  cases h with
  | full htag => exact Or.inr (append_colon_inj ht htag.no_colon hs).1.symm
  | index => exact Or.inl rfl
  | tagged htag => exact Or.inr (append_colon_inj ht htag.no_colon hs).1.symm
  | name => exact Or.inl rfl

end Shapes

section Positions

theorem toInt_of_lt {n : Nat} (h : n < 2 ^ 31) : toInt n = n := by
  rw [toInt, Int.bmod]
  split
  next => omega
  next => omega

/-- A position as the `int` gives it: minus one, another negative number, or what is left modulo 2 ^ 32. -/
theorem toInt_cases (n : Nat) :
    n % 2 ^ 32 = 2 ^ 32 - 1 ∧ toInt n = -1 ∨
    2 ^ 31 ≤ n % 2 ^ 32 ∧ n % 2 ^ 32 < 2 ^ 32 - 1 ∧ toInt n < -1 ∧ -2 ^ 31 ≤ toInt n ∨
    n % 2 ^ 32 < 2 ^ 31 ∧ toInt n = (n % 2 ^ 32 : Nat) := by
  rw [toInt, Int.bmod]
  split
  next => omega
  next => omega

theorem toInt_succ_neg {n : Nat} (hlo : 2 ^ 31 ≤ n + 1) (hhi : n + 1 < 2 ^ 32) : toInt (toInt n + 1) < 0 := by
  obtain ⟨hmod, hp⟩ | ⟨-, -, hp, hmin⟩ | ⟨hmod, hp⟩ := toInt_cases n
  · omega
  · have hsucc : toInt (toInt n + 1) = toInt n + 1 := by rw [toInt, Int.bmod_eq_of_le (by omega) (by omega)]
    omega
  · have hlast : toInt n + 1 = (2 ^ 31 : Nat) := by omega
    rw [hlast]
    decide

theorem toInt_add_sub (r : Int) (k : Nat) : toInt (toInt (toInt r + (k + 1)) - k - 1) = toInt r := by
  simp only [toInt, Int.bmod]
  split <;> split <;> split <;> omega

theorem substr_nat {s : Text} {k : Nat} (h : k ≤ s.length) : substr s k = .ok (s.drop k) := by
  rw [substr, if_neg (by omega), Int.toNat_natCast]

theorem substr_negative {s : Text} {pos : Int} (h : pos < 0) : substr s pos = .error .terminated := by
  rw [substr, if_pos (Or.inl h)]

theorem parse_plain {s : Text} (hne : s ≠ []) (h : toInt (find s ':') = -1) : ParseTagIndexName s = .ok ([], -1, s) := by
  rw [ParseTagIndexName, if_neg hne, if_pos h]

theorem parse_throws {s : Text} (hne : s ≠ []) (h : toInt (find s ':') ≠ -1) (hneg : toInt (toInt (find s ':') + 1) < 0) :
    ParseTagIndexName s = .error .terminated := by
  rw [ParseTagIndexName, if_neg hne]
  dsimp only
  rw [if_neg h, substr_negative hneg, error_bind]

/-- What a call makes of the parts before and after a cut, once it looks for an index. -/
def parseIndexed (s tag rest : Text) (pos2 : Int) : Except Stop (Text × Int × Text) :=
  if !validateTag tag then .error .failed
  else if pos2 = -1 then .ok (tag, 0, rest)
  else if !validateIndex (prefixOf rest pos2) then .error .failed
  else do
    let index ← stoi (prefixOf rest pos2)
    let name ← substr s (toInt (toInt (pos2 + (tag.length + 1)) + 1))
    .ok (tag, index, name)

theorem parse_cut {s : Text} {k : Nat} (hne : s ≠ []) (hk : toInt (find s ':') = k) (hk1 : k + 1 < 2 ^ 31)
    (hlen : k + 1 ≤ s.length) :
    ParseTagIndexName s = parseIndexed s (s.take k) (s.drop (k + 1)) (toInt (find (s.drop (k + 1)) ':')) := by
  have hcast : (k : Int) + 1 = (k + 1 : Nat) := (Int.natCast_succ k).symm
  have hnext : toInt ((k : Int) + 1) = (k + 1 : Nat) := by rw [hcast, toInt_of_lt hk1]
  have htag : prefixOf s k = s.take k := by rw [prefixOf, if_neg (by omega), Int.toNat_natCast]
  have htaglen : ((s.take k).length : Int) = k := by
    rw [List.length_take]
    omega
  rw [ParseTagIndexName, if_neg hne]
  dsimp only
  rw [hk, if_neg (by omega), hnext, substr_nat hlen, htag, parseIndexed, htaglen]
  rw [ok_bind, toInt_add_sub]
  simp only [validateName, Bool.not_true, Bool.false_eq_true, if_false]

end Positions

section Right

variable {s tag num rest : Text}

theorem right_of_failed (hne : s ≠ []) (h : ParseTagIndexName s = .error .failed) :
    ParsedRight s ↔ ¬ ∃ tag index name, Documented s tag index name := by
  apply Iff.intro
  · intro hr hd
    obtain ⟨r, hok⟩ := (hr.accepts hne).mpr hd
    rw [h] at hok
    cases hok
  · intro hd
    refine ⟨?_, fun _ => iff_of_false ?_ hd, ?_⟩
    · intro e he
      rw [h] at he
      cases he
      rfl
    · intro ⟨r, hok⟩
      rw [h] at hok
      cases hok
    · intro _ t i n hok
      rw [h] at hok
      cases hok

theorem right_of_ok {t n : Text} {i : Int} (hne : s ≠ []) (h : ParseTagIndexName s = .ok (t, i, n)) :
    ParsedRight s ↔ Documented s t i n := by
  apply Iff.intro
  · intro hr
    exact hr.triple hne t i n h
  · intro hd
    refine ⟨?_, fun _ => iff_of_true ⟨_, h⟩ ⟨t, i, n, hd⟩, ?_⟩
    · intro e he
      rw [h] at he
      cases he
    · intro _ t' i' n' hok
      rw [h] at hok
      cases hok
      exact hd

theorem not_right_of_terminated (h : ParseTagIndexName s = .error .terminated) : ¬ ParsedRight s := by
  intro hr
  have := hr.returns _ h
  cases this

/-- The first colon is past the positions that an `int` has. -/
theorem right_far (ht : ':' ∉ tag) (hfar : 2 ^ 31 ≤ tag.length + 1) :
    ParsedRight (tag ++ ':' :: rest) ↔ 2 ^ 32 ≤ tag.length ∧ tag.length % 2 ^ 32 < 2 ^ 31 - 1 ∧
      ¬ validateTag (tag.take (tag.length % 2 ^ 32)) = true ∧
      ¬ ∃ t i n, Documented (tag ++ ':' :: rest) t i n := by
  have hne : tag ++ ':' :: rest ≠ [] := by simp
  have hfind := find_append ht rest
  have hcolon : ':' ∈ tag ++ ':' :: rest := List.mem_append_right _ List.mem_cons_self
  obtain ⟨hmod, hpos⟩ | ⟨hlo, hhi, hneg, hmin⟩ | ⟨hmod, hpos⟩ := toInt_cases tag.length
  · have hok := parse_plain hne (by rw [hfind, hpos])
    rw [right_of_ok hne hok]
    exact iff_of_false (fun hd => hd.no_colon (by decide) hcolon) (by omega)
  · have hnext : toInt (toInt tag.length + 1) = toInt tag.length + 1 := by
      rw [toInt, Int.bmod_eq_of_le (by omega) (by omega)]
    have hthrow := parse_throws hne (by rw [hfind]; omega) (by rw [hfind, hnext]; omega)
    exact iff_of_false (not_right_of_terminated hthrow) (by omega)
  · generalize hk : tag.length % 2 ^ 32 = k at hmod hpos
    by_cases hlast : k + 1 < 2 ^ 31
    · have hlong : 2 ^ 32 ≤ tag.length := by omega
      have hcut := parse_cut hne (hfind ▸ hpos) hlast (by rw [List.length_append, List.length_cons]; omega)
      have htake : (tag ++ ':' :: rest).take k = tag.take k := List.take_append_of_le_length (by omega)
      have hdrop : (tag ++ ':' :: rest).drop (k + 1) = tag.drop (k + 1) ++ ':' :: rest :=
        List.drop_append_of_le_length (by omega)
      have hsecond : toInt (find (tag.drop (k + 1) ++ ':' :: rest) ':') = -1 := by
        rw [find_append (fun hc => ht (List.mem_of_mem_drop hc)), List.length_drop]
        obtain ⟨-, hp⟩ | ⟨-, h, -⟩ | ⟨h, -⟩ := toInt_cases (tag.length - (k + 1))
        · exact hp
        · omega
        · omega
      rw [htake, hdrop, hsecond, parseIndexed] at hcut
      by_cases hv : validateTag (tag.take k) = true
      · rw [hv, Bool.not_true, if_neg Bool.false_ne_true, if_pos rfl] at hcut
        rw [right_of_ok hne hcut]
        apply iff_of_false
        · intro hd
          obtain hnil | hall := hd.tag_eq ht
          · rw [hnil] at hv
            exact absurd hv (by decide)
          · have hlen := congrArg List.length hall
            rw [List.length_take] at hlen
            omega
        · intro h
          exact h.2.2.1 hv
      · rw [Bool.eq_false_iff.mpr hv, Bool.not_false, if_pos rfl] at hcut
        rw [right_of_failed hne hcut]
        apply Iff.intro
        · intro hd
          exact ⟨hlong, by omega, hv, hd⟩
        · intro h
          exact h.2.2.2
    · have hk31 : (k : Int) + 1 = (2 ^ 31 : Nat) := by omega
      have hthrow := parse_throws hne (by rw [hfind, hpos]; omega) (by rw [hfind, hpos, hk31]; decide)
      exact iff_of_false (not_right_of_terminated hthrow) (by omega)

/-- One colon. -/
theorem right_two (ht : ':' ∉ tag) (hr : ':' ∉ rest) (hnear : tag.length + 1 < 2 ^ 31) :
    ParsedRight (tag ++ ':' :: rest) ↔ ¬ validateTag tag = true ∨ IsTag tag ∧ ¬ IsIndex rest := by
  have hne : tag ++ ':' :: rest ≠ [] := by simp
  have hpos : toInt (find (tag ++ ':' :: rest) ':') = tag.length := by rw [find_append ht, toInt_of_lt (by omega)]
  have hcut := parse_cut hne hpos hnear (by rw [List.length_append, List.length_cons]; omega)
  have htake : (tag ++ ':' :: rest).take tag.length = tag := List.take_left
  have hdrop : (tag ++ ':' :: rest).drop (tag.length + 1) = rest := by
    rw [← List.drop_drop, List.drop_left, List.drop_one, List.tail_cons]
  rw [htake, hdrop, find_none hr, parseIndexed] at hcut
  by_cases hv : validateTag tag = true
  · rw [hv, Bool.not_true, if_neg Bool.false_ne_true, if_pos rfl] at hcut
    rw [right_of_ok hne hcut, documented_two ht hr]
    apply Iff.intro
    · intro hd
      exact Or.inr ⟨hd.1, hd.2.1⟩
    · intro h
      obtain ⟨htag, hidx⟩ := h.resolve_left (not_not_intro hv)
      exact ⟨htag, hidx, rfl, rfl, rfl⟩
  · rw [Bool.eq_false_iff.mpr hv, Bool.not_false, if_pos rfl] at hcut
    rw [right_of_failed hne hcut]
    apply iff_of_true
    · intro ⟨t, i, n, hd⟩
      exact hv ((documented_two ht hr).mp hd).1.validate
    · exact Or.inl hv

/-- The parts of an input with two colons or more. -/
theorem parse_three (name : Text) (ht : ':' ∉ tag) (hn : ':' ∉ num) (hnear : tag.length + 1 < 2 ^ 31) :
    ParseTagIndexName (tag ++ ':' :: (num ++ ':' :: name)) =
      parseIndexed (tag ++ ':' :: (num ++ ':' :: name)) tag (num ++ ':' :: name) (toInt num.length) := by
  have hne : tag ++ ':' :: (num ++ ':' :: name) ≠ [] := by simp
  have hpos : toInt (find (tag ++ ':' :: (num ++ ':' :: name)) ':') = tag.length := by
    rw [find_append ht, toInt_of_lt (by omega)]
  have hcut := parse_cut hne hpos hnear (by rw [List.length_append, List.length_cons]; omega)
  have htake : (tag ++ ':' :: (num ++ ':' :: name)).take tag.length = tag := List.take_left
  have hdrop : (tag ++ ':' :: (num ++ ':' :: name)).drop (tag.length + 1) = num ++ ':' :: name := by
    rw [← List.drop_drop, List.drop_left, List.drop_one, List.tail_cons]
  rw [htake, hdrop, find_append hn] at hcut
  exact hcut

/-- What is cut off as the index, when it is one, is all of it. -/
theorem prefixOf_index {name : Text} (h : IsIndex num) : prefixOf (num ++ ':' :: name) (toInt num.length) = num := by
  have hlen := h.length_le
  rw [toInt_of_lt (by omega), prefixOf, if_neg (by omega), Int.toNat_natCast, List.take_left]

/-- A valid index that is cut off within the positions that an `int` has is the whole part. -/
theorem prefixOf_valid {name : Text} (hshort : num.length < 2 ^ 32)
    (hv : validateIndex (prefixOf (num ++ ':' :: name) (toInt num.length)) = true) :
    prefixOf (num ++ ':' :: name) (toInt num.length) = num ∧ num.length < 2 ^ 31 := by
  have hneg : ¬ toInt num.length < 0 := by
    intro hneg
    rw [prefixOf, if_pos hneg] at hv
    exact absurd ((validateIndex_digits hv).2 ':' (List.mem_append_right _ List.mem_cons_self)) (by decide)
  obtain ⟨-, hp⟩ | ⟨-, -, hp, -⟩ | ⟨hmod, hp⟩ := toInt_cases num.length
  · omega
  · omega
  · rw [Nat.mod_eq_of_lt hshort] at hmod hp
    refine ⟨?_, hmod⟩
    rw [hp, prefixOf, if_neg (by omega), Int.toNat_natCast, List.take_left]

/-- With a valid tag and a valid index the call is right on the documented inputs whose parts are all within reach. -/
theorem right_indexed {name : Text} (ht : ':' ∉ tag) (hn : ':' ∉ num) (hnear : tag.length + 1 < 2 ^ 31)
    (hv : validateTag tag = true) (hpos : toInt num.length ≠ -1)
    (hidx : validateIndex (prefixOf (num ++ ':' :: name) (toInt num.length)) = true) :
    ParsedRight (tag ++ ':' :: (num ++ ':' :: name)) ↔
      IsTag tag ∧ IsIndex num ∧ tag.length + num.length + 2 < 2 ^ 31 := by
  have hne : tag ++ ':' :: (num ++ ':' :: name) ≠ [] := by simp
  have hparse := parse_three name ht hn hnear
  rw [parseIndexed, hv, Bool.not_true, if_neg Bool.false_ne_true, if_neg hpos, hidx, Bool.not_true,
    if_neg Bool.false_ne_true, stoi_index hidx] at hparse
  by_cases hfits : digitsValue (prefixOf (num ++ ':' :: name) (toInt num.length)) < 2 ^ 31
  · rw [if_pos hfits, ok_bind] at hparse
    by_cases hshort : num.length < 2 ^ 32
    · obtain ⟨hpre, hlt⟩ := prefixOf_valid hshort hidx
      rw [hpre] at hfits hidx hparse
      have hnum : IsIndex num := isIndex_iff.mpr ⟨hidx, hfits⟩
      rw [toInt_of_lt hlt] at hparse
      by_cases hall : tag.length + num.length + 2 < 2 ^ 31
      · have hend : toInt (toInt ((num.length : Int) + (tag.length + 1)) + 1) = (tag.length + num.length + 2 : Nat) := by
          have hin : (num.length : Int) + (tag.length + 1) = (tag.length + num.length + 1 : Nat) := by omega
          have hout : ((tag.length + num.length + 1 : Nat) : Int) + 1 = (tag.length + num.length + 2 : Nat) := by omega
          rw [hin, toInt_of_lt (by omega), hout, toInt_of_lt hall]
        have hdrop : (tag ++ ':' :: (num ++ ':' :: name)).drop (tag.length + num.length + 2) = name := by
          rw [show tag.length + num.length + 2 = tag.length + (1 + (num.length + 1)) by omega, ← List.drop_drop,
            List.drop_left, ← List.drop_drop, List.drop_one, List.tail_cons, ← List.drop_drop, List.drop_left,
            List.drop_one, List.tail_cons]
        have hlen : tag.length + num.length + 2 ≤ (tag ++ ':' :: (num ++ ':' :: name)).length := by
          simp only [List.length_append, List.length_cons]
          omega
        rw [hend, substr_nat hlen, ok_bind, hdrop] at hparse
        rw [right_of_ok hne hparse, documented_three ht hn]
        apply Iff.intro
        · intro hd
          have htag : IsTag tag := hd.1.resolve_right fun h => absurd (h ▸ hv) (by decide)
          exact ⟨htag, hnum, hall⟩
        · intro h
          exact ⟨Or.inl h.1, hnum, rfl, rfl, rfl⟩
      · -- the position behind the second colon is not an `int`
        have hneg : toInt (toInt ((num.length : Int) + (tag.length + 1)) + 1) < 0 := by
          have hin : (num.length : Int) + (tag.length + 1) = (tag.length + num.length + 1 : Nat) := by omega
          rw [hin]
          exact toInt_succ_neg (by omega) (by omega)
        rw [substr_negative hneg, error_bind] at hparse
        exact iff_of_false (not_right_of_terminated hparse) (fun h => hall h.2.2)
    · have hlong : ¬ IsIndex num := by
        intro h
        have := h.length_le
        omega
      apply iff_of_false _ fun h => hlong h.2.1
      unfold substr at hparse
      split at hparse
      next =>
        rw [error_bind] at hparse
        exact not_right_of_terminated hparse
      next =>
        rw [ok_bind] at hparse
        rw [right_of_ok hne hparse, documented_three ht hn]
        exact fun hd => hlong hd.2.1
  · rw [if_neg hfits, error_bind] at hparse
    apply iff_of_false (not_right_of_terminated hparse)
    intro h
    rw [prefixOf_index h.2.1] at hfits
    exact hfits h.2.1.fits

/-- Two colons or more. -/
theorem right_three {name : Text} (ht : ':' ∉ tag) (hn : ':' ∉ num) (hnear : tag.length + 1 < 2 ^ 31) :
    ParsedRight (tag ++ ':' :: (num ++ ':' :: name)) ↔
      if tag = [] then ¬ IsIndex num
      else ¬ validateTag tag = true ∨
        num.length % 2 ^ 32 ≠ 2 ^ 32 - 1 ∧ ¬ validateIndex (prefixOf (num ++ ':' :: name) (toInt num.length)) = true ∨
        IsTag tag ∧ IsIndex num ∧ tag.length + num.length + 2 < 2 ^ 31 := by
  have hne : tag ++ ':' :: (num ++ ':' :: name) ≠ [] := by simp
  have hparse := parse_three name ht hn hnear
  rw [parseIndexed] at hparse
  by_cases hv : validateTag tag = true
  · have htag : tag ≠ [] := by
      intro h
      rw [h] at hv
      exact absurd hv (by decide)
    rw [if_neg htag, or_iff_right (not_not_intro hv)]
    rw [hv, Bool.not_true, if_neg Bool.false_ne_true] at hparse
    have hone : toInt num.length = -1 ↔ num.length % 2 ^ 32 = 2 ^ 32 - 1 := by
      obtain ⟨hm, hp⟩ | ⟨hlo, hhi, hp, -⟩ | ⟨hm, hp⟩ := toInt_cases num.length
      · exact iff_of_true hp hm
      · exact iff_of_false (by omega) (by omega)
      · exact iff_of_false (by omega) (by omega)
    by_cases hpos : toInt num.length = -1
    · rw [if_pos hpos] at hparse
      rw [right_of_ok hne hparse, documented_three ht hn]
      apply iff_of_false
      · intro hd
        have hlen := hd.2.1.length_le
        have hmod := hone.mp hpos
        omega
      · intro h
        obtain ⟨hm, -⟩ | ⟨-, hidx, -⟩ := h
        · exact hm (hone.mp hpos)
        · have hlen := hidx.length_le
          have hmod := hone.mp hpos
          omega
    · rw [if_neg hpos] at hparse
      by_cases hidx : validateIndex (prefixOf (num ++ ':' :: name) (toInt num.length)) = true
      · rw [right_indexed ht hn hnear hv hpos hidx]
        apply Iff.intro
        · exact Or.inr
        · intro h
          exact h.resolve_left fun h => h.2 hidx
      · rw [Bool.eq_false_iff.mpr hidx, Bool.not_false, if_pos rfl] at hparse
        rw [right_of_failed hne hparse]
        apply iff_of_true
        · intro ⟨t, i, n, hd⟩
          have hnum := ((documented_three ht hn).mp hd).2.1
          rw [prefixOf_index hnum] at hidx
          exact hidx (isIndex_iff.mp hnum).1
        · exact Or.inl ⟨fun h => hpos (hone.mpr h), hidx⟩
  · rw [Bool.eq_false_iff.mpr hv, Bool.not_false, if_pos rfl] at hparse
    rw [right_of_failed hne hparse]
    by_cases htag : tag = []
    · rw [if_pos htag]
      apply not_congr
      apply Iff.intro
      · intro ⟨t, i, n, hd⟩
        exact ((documented_three ht hn).mp hd).2.1
      · intro hnum
        exact ⟨_, _, _, (documented_three ht hn).mpr ⟨Or.inr htag, hnum, rfl, rfl, rfl⟩⟩
    · rw [if_neg htag]
      apply iff_of_true
      · intro ⟨t, i, n, hd⟩
        obtain h | h := ((documented_three ht hn).mp hd).1
        · exact hv h.validate
        · exact htag h
      · exact Or.inl hv

/-- The input is parsed as it should be exactly when it meets the condition. -/
theorem parseTagIndexName_right_iff (s : Text) : ParsedRight s ↔ TextParses s := by
  have hsplit : ∀ s : Text, ':' ∉ s ∨ ∃ before after, s = before ++ ':' :: after ∧ ':' ∉ before := by
    intro s
    by_cases hc : ':' ∈ s
    · obtain ⟨before, after, hs, hb⟩ := List.eq_append_cons_of_mem hc
      exact Or.inr ⟨before, after, hs, hb⟩
    · exact Or.inl hc
  unfold TextParses
  obtain hc | ⟨tag, rest, hs, ht⟩ := hsplit s
  · rw [splitColon_none hc]
    apply iff_of_true _ trivial
    by_cases hne : s = []
    · subst hne
      exact ⟨fun e he => (nomatch he), fun h => absurd rfl h, fun h => absurd rfl h⟩
    · rw [right_of_ok hne (parse_plain hne (find_none hc))]
      exact .name hc
  · rw [hs, splitColon_append ht]
    dsimp only
    by_cases hfar : 2 ^ 31 ≤ tag.length + 1
    · rw [if_pos hfar, right_far ht hfar]
    · rw [if_neg hfar]
      obtain hr | ⟨num, name, hrest, hn⟩ := hsplit rest
      · rw [splitColon_none hr, right_two ht hr (Nat.not_le.mp hfar)]
      · rw [hrest, splitColon_append hn, right_three ht hn (Nat.not_le.mp hfar)]

/-- A tag that starts with a digit and an index in the place of a name are accepted, an index without a tag is
refused, and an index beyond an `int` throws. -/
theorem parseTagIndexName_wrong : ¬ ParsedRight ['1', 'a', ':', 'n'] ∧ ¬ ParsedRight ['t', ':', '0'] ∧
    ¬ ParsedRight [':', '0', ':', 'n'] ∧ ¬ ParsedRight ("t:2147483648:n".toList) := by
  refine ⟨?_, ?_, ?_, ?_⟩
  · intro h
    obtain hv | ⟨htag, -⟩ := (right_two (show ':' ∉ ['1', 'a'] by decide) (show ':' ∉ ['n'] by decide) (by decide)).mp h
    · exact hv (by decide)
    · exact absurd (htag.first '1' rfl) (by decide)
  · intro h
    obtain hv | ⟨-, hidx⟩ := (right_two (show ':' ∉ ['t'] by decide) (show ':' ∉ ['0'] by decide) (by decide)).mp h
    · exact hv (by decide)
    · exact hidx (isIndex_iff.mpr (by decide))
  · intro h
    have hr := (right_three (show ':' ∉ [] by decide) (show ':' ∉ ['0'] by decide) (by decide)).mp h
    rw [if_pos rfl] at hr
    exact hr (isIndex_iff.mpr (by decide))
  · exact not_right_of_terminated (by decide +kernel)

end Right

end Dni.Cpp.Utils
