import Mathlib.Data.List.Basic

namespace Json

def Space (c : Char) : Prop := c ∈ [' ', '\t', '\n', '\r']

instance : DecidablePred Space := fun c => inferInstanceAs (Decidable (c ∈ _))

def Spaces (cs : List Char) : Prop := ∀ c ∈ cs, Space c

def Hex (c : Char) : Prop := c.isDigit ∨ ('a' ≤ c ∧ c ≤ 'f') ∨ ('A' ≤ c ∧ c ≤ 'F')

/-- The characters between the quotes of a string. -/
inductive Chars : List Char → Prop
  | nil : Chars []
  | plain {c : Char} {cs : List Char} (hq : c ≠ '"') (hb : c ≠ '\\') (hc : ' ' ≤ c) (h : Chars cs) : Chars (c :: cs)
  | escape {c : Char} {cs : List Char} (hc : c ∈ ['"', '\\', '/', 'b', 'f', 'n', 'r', 't']) (h : Chars cs) :
    Chars ('\\' :: c :: cs)
  | unicode {a b c d : Char} {cs : List Char} (ha : Hex a) (hb : Hex b) (hc : Hex c) (hd : Hex d) (h : Chars cs) :
    Chars ('\\' :: 'u' :: a :: b :: c :: d :: cs)

inductive Str : List Char → Prop
  | mk {cs : List Char} (h : Chars cs) : Str ('"' :: (cs ++ ['"']))

def Digits (cs : List Char) : Prop := cs ≠ [] ∧ ∀ c ∈ cs, c.isDigit

/-- The integer part of a number has no leading zero. -/
def Whole (cs : List Char) : Prop := cs = ['0'] ∨ Digits cs ∧ cs.head? ≠ some '0'

def Fraction (cs : List Char) : Prop := cs = [] ∨ ∃ ds, Digits ds ∧ cs = '.' :: ds

def Exponent (cs : List Char) : Prop :=
  cs = [] ∨ ∃ e sign ds, e ∈ ['e', 'E'] ∧ sign ∈ [[], ['+'], ['-']] ∧ Digits ds ∧ cs = e :: (sign ++ ds)

inductive Number : List Char → Prop
  | mk {sign whole frac exp : List Char} (hs : sign ∈ [[], ['-']]) (hw : Whole whole) (hf : Fraction frac)
    (he : Exponent exp) : Number (sign ++ (whole ++ (frac ++ exp)))

mutual

inductive Value : List Char → Prop
  | literal {cs : List Char} (h : cs ∈ ["null".toList, "true".toList, "false".toList]) : Value cs
  | number {cs : List Char} (h : Number cs) : Value cs
  | string {cs : List Char} (h : Str cs) : Value cs
  | emptyArray {w : List Char} (h : Spaces w) : Value ('[' :: (w ++ [']']))
  | array {es : List Char} (h : Elements es) : Value ('[' :: (es ++ [']']))
  | emptyObject {w : List Char} (h : Spaces w) : Value ('{' :: (w ++ ['}']))
  | object {ms : List Char} (h : Members ms) : Value ('{' :: (ms ++ ['}']))

inductive Elements : List Char → Prop
  | last {w v w' : List Char} (hw : Spaces w) (hv : Value v) (hw' : Spaces w') : Elements (w ++ (v ++ w'))
  | cons {w v w' es : List Char} (hw : Spaces w) (hv : Value v) (hw' : Spaces w') (h : Elements es) :
    Elements (w ++ (v ++ (w' ++ ',' :: es)))

inductive Members : List Char → Prop
  | last {w k w' x v x' : List Char} (hw : Spaces w) (hk : Str k) (hw' : Spaces w') (hx : Spaces x) (hv : Value v)
    (hx' : Spaces x') : Members (w ++ (k ++ (w' ++ ':' :: (x ++ (v ++ x')))))
  | cons {w k w' x v x' ms : List Char} (hw : Spaces w) (hk : Str k) (hw' : Spaces w') (hx : Spaces x)
    (hv : Value v) (hx' : Spaces x') (h : Members ms) :
    Members (w ++ (k ++ (w' ++ ':' :: (x ++ (v ++ (x' ++ ',' :: ms))))))

end

/-- A text is one value, with spaces around it. -/
inductive Text : List Char → Prop
  | mk {w v w' : List Char} (hw : Spaces w) (hv : Value v) (hw' : Spaces w') : Text (w ++ (v ++ w'))

theorem spaces_nil : Spaces [] := by
  intro c hc
  cases hc

theorem Value.text {v : List Char} (h : Value v) : Text v := by
  have hmk := Text.mk spaces_nil h spaces_nil
  rwa [List.nil_append, List.append_nil] at hmk

theorem Whole.head {cs : List Char} (h : Whole cs) : ∃ c rest, cs = c :: rest ∧ c.isDigit := by
  obtain rfl | ⟨⟨hne, hall⟩, _⟩ := h
  · exact ⟨'0', [], rfl, rfl⟩
  · obtain ⟨c, rest, rfl⟩ := List.exists_cons_of_ne_nil hne
    exact ⟨c, rest, rfl, hall c List.mem_cons_self⟩

theorem Number.head {c : Char} {cs : List Char} (h : Number (c :: cs)) : c = '-' ∨ c.isDigit := by
  generalize ht : c :: cs = text at h
  cases h with
  | mk hs hw _ _ =>
    obtain ⟨d, rest, rfl, hd⟩ := hw.head
    obtain rfl | hs := List.mem_cons.mp hs
    · cases ht
      exact Or.inr hd
    · cases List.mem_singleton.mp hs
      cases ht
      exact Or.inl rfl

theorem Chars.of_plain {cs : List Char} (h : ∀ c ∈ cs, c ≠ '"' ∧ c ≠ '\\' ∧ ' ' ≤ c) : Chars cs := by
  induction cs with
  | nil => exact .nil
  | cons c cs ih =>
    obtain ⟨hquote, hslash, hspace⟩ := h c List.mem_cons_self
    exact .plain hquote hslash hspace (ih fun d hd => h d (List.mem_cons_of_mem _ hd))

/-- Values that are separated by commas are the elements of an array. -/
theorem elements_intercalate (v : List Char) {vs : List (List Char)} (h : ∀ x ∈ v :: vs, Value x) :
    Elements (List.intercalate [','] (v :: vs)) := by
  induction vs generalizing v with
  | nil =>
    have hlast := Elements.last spaces_nil (h v List.mem_cons_self) spaces_nil
    rw [List.nil_append, List.append_nil] at hlast
    rwa [List.intercalate_singleton]
  | cons u vs ih =>
    have hrest := ih u fun x hx => h x (List.mem_cons_of_mem _ hx)
    have hcons := Elements.cons spaces_nil (h v List.mem_cons_self) spaces_nil hrest
    rwa [List.nil_append, List.nil_append] at hcons

/-- A value that opens with a brace closes with one. -/
theorem Value.brace {cs : List Char} (h : Value ('{' :: cs)) : ∃ body, cs = body ++ ['}'] := by
  generalize ht : '{' :: cs = text at h
  cases h with
  | literal h =>
    subst ht
    simp at h
  | number h =>
    subst ht
    obtain hm | hd := h.head
    · cases hm
    · cases hd
  | string h =>
    cases h
    cases ht
  | emptyArray h => cases ht
  | array h => cases ht
  | emptyObject h =>
    cases ht
    exact ⟨_, rfl⟩
  | object h =>
    cases ht
    exact ⟨_, rfl⟩

/-- A text that opens with a brace does not close with a bracket. -/
theorem not_text_brace_bracket (cs : List Char) : ¬ Text ('{' :: (cs ++ [']'])) := by
  intro h
  generalize ht : '{' :: (cs ++ [']']) = text at h
  cases h with
  | @mk w v tail hw hv htail =>
    cases w with
    | cons c w =>
      obtain ⟨rfl, _⟩ := List.cons.inj ht
      exact absurd (hw '{' List.mem_cons_self) (by decide)
    | nil =>
      cases v with
      | nil =>
        rw [List.nil_append, List.nil_append] at ht
        exact absurd (htail '{' (ht ▸ List.mem_cons_self)) (by decide)
      | cons c v =>
        obtain ⟨rfl, hrest⟩ := List.cons.inj ht
        obtain ⟨body, rfl⟩ := hv.brace
        have hlast := congrArg List.getLast? hrest
        rw [List.getLast?_concat] at hlast
        obtain rfl | ⟨front, last, rfl⟩ := tail.eq_nil_or_concat
        · simp at hlast
        · have hspace := htail last (by simp)
          have hclose : ']' = last := by simpa [← List.append_assoc] using hlast
          rw [← hclose] at hspace
          exact absurd hspace (by decide)

end Json
