import Dni.IPNetText
import Dni.Lib.Digits
import Dni.Lib.JsonText

namespace Dni

open GoMap Bytes

/-- The libraries under the texts of a set: the parsers of addresses, `math.Log2` on whole numbers,
and `json.Unmarshal` into a slice of strings. -/
structure TextLibrary where
  parser : NetParser
  log2 : Nat → Nat
  unmarshal : List Char → Option (List String)

/-- `%q` of a text without quotes, backslashes and characters that are not printed. -/
def quote (s : String) : List Char := '"' :: (s.toList ++ ['"'])

/-- A character that needs no escape in a string. -/
def Unescaped (c : Char) : Prop := ' ' ≤ c ∧ c ≤ '~' ∧ c ≠ '"' ∧ c ≠ '\\'

instance : DecidablePred Unescaped := fun _ => inferInstanceAs (Decidable (_ ∧ _))

/-- The array of some strings. -/
def arrayText (ts : List String) : List Char := '[' :: (List.intercalate [','] (ts.map quote) ++ [']'])

section Texts

variable (lib : TextLibrary)

/-- The complement of a mask plus one wraps to zero for the empty mask, which is asked for first. -/
def maskToCidr (mask : UInt32) : Int := if mask = 0 then 0 else 32 - lib.log2 (~~~mask + 1).toNat

def IPNet.string (n : IPNet) : String :=
  if n.mask = uint32Max then uitoa n.ipAddr
  else uitoa n.ipAddr ++ "/" ++ (maskToCidr lib n.mask).repr

/-- The libraries as documented: dotted addresses and their networks are read, the logarithm of a power
of two is exact, and arrays of plain strings are decoded. -/
structure TextLibrary.Correct : Prop where
  ip : ∀ a, lib.parser.parseIP (uitoa a) = some (v4InV6Prefix ++ uiton a)
  address : ∀ a, lib.parser.parseCIDR (uitoa a) = none
  network : ∀ a, ∀ ones ≤ 32,
    lib.parser.parseCIDR (uitoa a ++ "/" ++ String.ofList (Nat.toDigits 10 ones)) =
      some ⟨List.zipWith (· &&& ·) (uiton a) (cidrMask ones 32), cidrMask ones 32⟩
  log2 : ∀ k < 32, lib.log2 (2 ^ k) = k
  null : lib.unmarshal "null".toList = some []
  strings : ∀ ts : List String, (∀ t ∈ ts, ∀ c ∈ t.toList, Unescaped c) → lib.unmarshal (arrayText ts) = some ts

namespace IPNetSet

def marshalJSON (ord : Order IPNet Unit) (i : IPNetSet) : List Char :=
  if i.size = 0 then "null".toList else arrayText ((ord.keys i.inets).map (IPNet.string lib))

/-- Each of the calls of Add ranges over its map in an order of its own. -/
def unmarshalJSONText (ords : Nat → Order IPNet Unit) (v : List Char) (i : IPNetSet) : Option IPNetSet :=
  (lib.unmarshal v).bind fun inets => i.unmarshalJSON lib.parser (inets.zipIdx.map fun e => (ords e.2, e.1))

end IPNetSet

variable {lib}

theorem maskToCidr_eq (hc : lib.Correct) {mask : UInt32} {k : Nat} (hk : k ≤ 32)
    (hmask : mask.toNat = 2 ^ 32 - 2 ^ k) : maskToCidr lib mask = (32 - k : Nat) := by
  have hpow : 2 ^ k ≤ 2 ^ 32 := Nat.pow_le_pow_right (by decide) hk
  rw [maskToCidr]
  split
  next hzero =>
    have hfull : 2 ^ k = 2 ^ 32 := by
      rw [hzero, UInt32.toNat_zero] at hmask
      omega
    rw [Nat.pow_right_injective (Nat.le_refl 2) hfull]
    rfl
  next hzero =>
    have hne : mask.toNat ≠ 0 := fun h0 => hzero (UInt32.toNat_inj.mp h0)
    have hlt : k < 32 := by
      by_contra hge
      have hfull : k = 32 := by omega
      rw [hfull] at hmask
      exact hne hmask
    have hsize : (~~~mask + 1).toNat = 2 ^ k := by
      have hpos := Nat.two_pow_pos k
      rw [UInt32.toNat_add, UInt32.toNat_not, hmask, UInt32.toNat_one]
      unfold UInt32.size
      omega
    rw [hsize, hc.log2 k hlt]
    omega

theorem repr_natCast (n : Nat) : (n : Int).repr = String.ofList (Nat.toDigits 10 n) := rfl

/-- The text of a canonical net is that of its address, with the length of the prefix unless it is 32. -/
theorem string_eq (hc : lib.Correct) {n : IPNet} {k : Nat} (hk : k ≤ 32)
    (hmask : n.mask.toNat = 2 ^ 32 - 2 ^ k) :
    n.string lib = if k = 0 then uitoa n.ipAddr
      else uitoa n.ipAddr ++ "/" ++ String.ofList (Nat.toDigits 10 (32 - k)) := by
  have hsingle : n.mask = uint32Max ↔ k = 0 := by
    have hmax : uint32Max.toNat = 2 ^ 32 - 1 := rfl
    have hpow : 2 ^ k ≤ 2 ^ 32 := Nat.pow_le_pow_right (by decide) hk
    rw [← UInt32.toNat_inj, hmask, hmax]
    apply Iff.intro
    · intro h
      have hone : 2 ^ k = 2 ^ 0 := by omega
      exact Nat.pow_right_injective (Nat.le_refl 2) hone
    · intro h
      rw [h]
      rfl
  rw [IPNet.string, maskToCidr_eq hc hk hmask, repr_natCast]
  simp only [hsingle]

/-- Under any of the masks, the address that a network is read with keeps its bits. -/
theorem toIPNet_masked {n : IPNet} {k : Nat} (hk : k ≤ 32) (hmask : n.mask.toNat = 2 ^ 32 - 2 ^ k)
    (hip : n.ipAddr &&& n.mask = n.ipAddr) :
    NetIPNet.toIPNet ⟨List.zipWith (· &&& ·) (uiton n.ipAddr) (cidrMask (32 - k) 32), cidrMask (32 - k) 32⟩ =
      some n := by
  have hlen := length_cidrMask_short (32 - k) (Nat.sub_le _ _)
  have hval : val (cidrMask (32 - k) 32) = n.mask.toNat := by
    have hpow : (2 ^ (32 - k) - 1) * 2 ^ k = 2 ^ 32 - 2 ^ k := by
      rw [Nat.sub_mul, ← pow_add, Nat.sub_add_cancel hk, Nat.one_mul]
    have hbytes : cidrMask (32 - k) (8 * 4) = cidrMaskBytes 4 (8 * 4 - k) :=
      cidrMask_eq (Or.inl rfl) (Nat.sub_le _ _)
    rw [hmask, ← hpow]
    exact (congrArg val hbytes).trans (val_cidrMaskBytes hk)
  have hand : val (List.zipWith (· &&& ·) (uiton n.ipAddr) (cidrMask (32 - k) 32)) =
      val (uiton n.ipAddr) &&& val (cidrMask (32 - k) 32) := val_zipWith_and (by rw [hlen]; rfl)
  have hfour : (List.zipWith (· &&& ·) (uiton n.ipAddr) (cidrMask (32 - k) 32)).length = 4 := by simp [hlen]
  obtain ⟨i, hi, hiv⟩ := ntoui_spec hfour
  obtain ⟨m, hm, hmv⟩ := ntoui_spec hlen
  have hin : i = n.ipAddr := by
    rw [← UInt32.toNat_inj, hiv, hand, val_uiton, hval, ← UInt32.toNat_and, hip]
  have hmn : m = n.mask := by rw [← UInt32.toNat_inj, hmv, hval]
  rw [NetIPNet.toIPNet, hi, hm, hin, hmn]
  rfl

theorem atoin_string_eq (hc : lib.Correct) {n : IPNet} (hn : n.Canonical) :
    lib.parser.atoin (n.string lib) = some n := by
  obtain ⟨⟨k, hk, hmask⟩, hip⟩ := hn
  rw [string_eq hc hk hmask, NetParser.atoin, atoinWith]
  by_cases hzero : k = 0
  · have hmax : n.mask = uint32Max := by
      rw [← UInt32.toNat_inj, hmask, hzero]
      rfl
    rw [if_pos hzero, hc.address, hc.ip]
    simp only [Option.bind_eq_bind, Option.bind_some, to4_mapped (length_uiton n.ipAddr), ntoui_uiton,
      Option.pure_def, ← hmax]
  · rw [if_neg hzero, hc.network _ _ (Nat.sub_le 32 k)]
    exact toIPNet_masked hk hmask hip

theorem unescaped_of_isDigit {c : Char} (h : c.isDigit = true) : Unescaped c := by
  have hrange : 48 ≤ c.toNat ∧ c.toNat ≤ 57 := by
    simp only [Char.isDigit, Bool.and_eq_true, decide_eq_true_eq, ge_iff_le, UInt32.le_iff_toNat_le] at h
    exact h
  refine ⟨?_, ?_, ?_, ?_⟩
  · change 32 ≤ c.toNat
    omega
  · change c.toNat ≤ 126
    omega
  · intro heq
    subst heq
    cases h
  · intro heq
    subst heq
    cases h

theorem unescaped_uitoa {a : UInt32} {c : Char} (h : c ∈ (uitoa a).toList) : Unescaped c := by
  have hoctet : ∀ b : UInt8, c ∈ Nat.toDigits 10 b.toNat → Unescaped c :=
    fun b hb => unescaped_of_isDigit ((toDigits_octet b).2 c hb).1
  have hdot : c = '.' → Unescaped c := by
    intro heq
    rw [heq]
    decide
  rw [toList_uitoa, uiton, dotted_four] at h
  simp only [List.mem_append, List.mem_cons, List.not_mem_nil, or_false] at h
  obtain h | h | h | h | h | h | h := h
  · exact hoctet _ h
  · exact hdot h
  · exact hoctet _ h
  · exact hdot h
  · exact hoctet _ h
  · exact hdot h
  · exact hoctet _ h

theorem unescaped_string (hc : lib.Correct) {n : IPNet} (hn : n.Canonical) {c : Char}
    (h : c ∈ (n.string lib).toList) : Unescaped c := by
  obtain ⟨⟨k, hk, hmask⟩, _⟩ := hn
  rw [string_eq hc hk hmask] at h
  split at h
  next => exact unescaped_uitoa h
  next =>
    rw [String.toList_append, String.toList_append, List.mem_append, List.mem_append] at h
    obtain (h | h) | h := h
    · exact unescaped_uitoa h
    · have hslash : c = '/' := by simpa using h
      rw [hslash]
      decide
    · rw [String.toList_ofList] at h
      exact unescaped_of_isDigit (Nat.isDigit_of_mem_toDigits (by decide) (by decide) h)

end Texts

section Sets

variable {lib : TextLibrary}

/-- Adding nets of an antichain, in any order, gives them and nothing else. -/
theorem addNets_antichain {A : IPNet → Prop} (hcan : ∀ n, A n → n.Canonical)
    (hanti : ∀ m n, A m → A n → m.Within n → m = n) {l : List (Order IPNet Unit × IPNet)} (hl : ∀ e ∈ l, A e.2)
    {i : IPNetSet} {ms : List IPNet} (hrep : Represents i ms) (hi : ∀ n ∈ i.inets, A n) :
    ∃ j, l.foldlM (fun i e => (i.add e.1 e.2).map Prod.fst) i = some j ∧
      ∀ n, n ∈ j.inets ↔ n ∈ i.inets ∨ n ∈ l.map Prod.snd := by
  induction l generalizing i ms with
  | nil => exact ⟨i, rfl, fun n => by simp⟩
  | cons e l ih =>
    obtain ⟨ord, n⟩ := e
    have hn : A n := hl (ord, n) List.mem_cons_self
    have hrest : ∀ e ∈ l, A e.2 := fun e he => hl e (List.mem_cons_of_mem _ he)
    have hspec := hrep.add_spec (hcan n hn) ord
    rw [List.foldlM_cons]
    generalize i.add ord n = out at hspec
    cases hspec with
    | @skip m hm hw =>
      have hnm : n = m := hanti n m hn (hi m hm) hw
      obtain ⟨j, hj, hmem⟩ := ih hrest hrep hi
      refine ⟨j, hj, fun x => ?_⟩
      rw [hmem, List.map_cons, List.mem_cons, ← or_assoc]
      apply or_congr_left
      apply Iff.intro Or.inl
      intro hx
      obtain hx | rfl := hx
      · exact hx
      · exact hnm ▸ hm
    | @done i' ms' del hout hrep' hinets _ _ =>
      have hadded : ∀ x, x ∈ i'.inets ↔ x ∈ i.inets ∨ x = n := by
        intro x
        rw [hinets, or_comm]
        apply or_congr_left
        apply Iff.intro And.left
        intro hx
        refine ⟨hx, fun hw => ?_⟩
        have hxn : x = n := hanti x n (hi x hx) hn hw
        exact hout x hx (hxn ▸ fun _ ha => ha)
      have hi' : ∀ x ∈ i'.inets, A x := by
        intro x hx
        obtain hx | rfl := (hadded x).mp hx
        · exact hi x hx
        · exact hn
      obtain ⟨j, hj, hmem⟩ := ih hrest hrep' hi'
      refine ⟨j, hj, fun x => ?_⟩
      rw [hmem, hadded, List.map_cons, List.mem_cons, or_assoc]

/-- The texts of canonical nets are added as the nets. -/
theorem unmarshalJSON_strings (hc : lib.Correct) {l : List (Order IPNet Unit × IPNet)}
    (hl : ∀ e ∈ l, e.2.Canonical) (i : IPNetSet) :
    i.unmarshalJSON lib.parser (l.map fun e => (e.1, e.2.string lib)) =
      l.foldlM (fun i e => (i.add e.1 e.2).map Prod.fst) i := by
  induction l generalizing i with
  | nil => rfl
  | cons e l ih =>
    have hnet : lib.parser.net (e.2.string lib) = e.2 := by
      rw [NetParser.net, atoin_string_eq hc (hl e List.mem_cons_self), Option.getD_some]
    have hrest := ih fun e he => hl e (List.mem_cons_of_mem _ he)
    rw [IPNetSet.unmarshalJSON, List.map_cons, List.foldlM_cons, List.foldlM_cons, IPNetSet.addText, hnet]
    cases (i.add e.1 e.2).map Prod.fst with
    | none => rfl
    | some i' => exact hrest i'

theorem unmarshalJSONText_marshalJSON (hc : lib.Correct) {i : IPNetSet} {ms : List IPNet} (hrep : Represents i ms)
    (ord : Order IPNet Unit) (ords : Nat → Order IPNet Unit) :
    ∃ j, newIPNetSet.unmarshalJSONText lib ords (i.marshalJSON lib ord) = some j ∧
      ∀ n, n ∈ j.inets ↔ n ∈ i.inets := by
  rw [IPNetSet.marshalJSON]
  split
  next hsize =>
    have hno : ∀ n, n ∉ i.inets := (empty_iff i).mp (by rw [IPNetSet.empty, hsize]; rfl)
    refine ⟨newIPNetSet, ?_, fun n => ?_⟩
    · rw [IPNetSet.unmarshalJSONText, hc.null]
      rfl
    · exact iff_of_false List.not_mem_nil (hno n)
  next =>
    have hmember : ∀ n ∈ ord.keys i.inets, n ∈ i.inets := fun n => (ord.mem_keys i.inets).mp
    have hplain : ∀ t ∈ (ord.keys i.inets).map (IPNet.string lib), ∀ c ∈ t.toList, Unescaped c := by
      intro t ht c hch
      obtain ⟨n, hn, rfl⟩ := List.mem_map.mp ht
      exact unescaped_string hc (hrep.canonical n (hmember n hn)) hch
    let l := (ord.keys i.inets).zipIdx.map fun e => (ords e.2, e.1)
    have hsnd : l.map Prod.snd = ord.keys i.inets := by
      rw [List.map_map]
      exact List.zipIdx_map_fst 0 _
    have hl : ∀ e ∈ l, e.2 ∈ i.inets := by
      intro e he
      apply hmember
      rw [← hsnd]
      exact List.mem_map_of_mem he
    have htexts : (((ord.keys i.inets).map (IPNet.string lib)).zipIdx.map fun e => (ords e.2, e.1)) =
        l.map fun e => (e.1, e.2.string lib) := by
      rw [List.zipIdx_map, List.map_map, List.map_map]
      rfl
    obtain ⟨j, hj, hmem⟩ := addNets_antichain (A := fun n => n ∈ i.inets) hrep.canonical
      (fun m n hm hn => hrep.antichain m hm n hn) hl newIPNetSet_represents (fun n hn => absurd hn List.not_mem_nil)
    refine ⟨j, ?_, fun n => ?_⟩
    · rw [IPNetSet.unmarshalJSONText, hc.strings _ hplain, Option.bind_some, htexts,
        unmarshalJSON_strings hc fun e he => hrep.canonical _ (hl e he)]
      exact hj
    · rw [hmem, hsnd, ord.mem_keys]
      exact or_iff_right List.not_mem_nil

/-- Whatever the order, the text of a set is a JSON text. -/
theorem text_marshalJSON (hc : lib.Correct) {i : IPNetSet} {ms : List IPNet} (hrep : Represents i ms)
    (ord : Order IPNet Unit) : Json.Text (i.marshalJSON lib ord) := by
  rw [IPNetSet.marshalJSON]
  split
  next => exact (Json.Value.literal (by simp)).text
  next hsize =>
    have hlen : (ord.keys i.inets).length ≠ 0 := by
      rw [(ord.keys_perm i.inets).length_eq, AList.keys, List.keys, List.length_map]
      exact hsize
    obtain ⟨n, ns, hns⟩ := List.exists_cons_of_length_pos (Nat.pos_of_ne_zero hlen)
    have hvalue : ∀ n ∈ ord.keys i.inets, Json.Value (quote (n.string lib)) := by
      intro n hn
      refine .string (.mk (.of_plain fun c hch => ?_))
      obtain ⟨hlow, _, hquote, hslash⟩ := unescaped_string hc (hrep.canonical n ((ord.mem_keys _).mp hn)) hch
      exact ⟨hquote, hslash, hlow⟩
    have hvalues : ∀ x ∈ quote (n.string lib) :: ns.map (fun n => quote (n.string lib)), Json.Value x := by
      intro x hx
      have hin : x ∈ (ord.keys i.inets).map fun n => quote (n.string lib) := by rwa [hns]
      obtain ⟨m, hm, rfl⟩ := List.mem_map.mp hin
      exact hvalue m hm
    have harray := (Json.Value.array (Json.elements_intercalate _ hvalues)).text
    rw [arrayText, List.map_map, hns]
    exact harray

end Sets

section Decoder

/-- Where a decoder stands in an array of strings. -/
inductive Reading
  | item
  | inside (text : List Char)
  | after

/-- The strings of an array without spaces and escapes; `done` are those already read. -/
def readStrings : Reading → List String → List Char → Option (List String)
  | _, _, [] => none
  | .item, done, c :: cs => if c = '"' then readStrings (.inside []) done cs else none
  | .inside text, done, c :: cs =>
    if c = '"' then readStrings .after (done ++ [String.ofList text]) cs
    else if Unescaped c then readStrings (.inside (text ++ [c])) done cs
    else none
  | .after, done, c :: cs =>
    if c = ',' then readStrings .item done cs else if c = ']' ∧ cs = [] then some done else none

def unmarshalStrings (v : List Char) : Option (List String) :=
  if v = "null".toList ∨ v = "[]".toList then some []
  else if v.head? = some '[' then readStrings .item [] v.tail
  else none

theorem readStrings_inside {cs : List Char} (hcs : ∀ c ∈ cs, Unescaped c) (text : List Char) (done : List String)
    (rest : List Char) : readStrings (.inside text) done (cs ++ '"' :: rest) =
      readStrings .after (done ++ [String.ofList (text ++ cs)]) rest := by
  induction cs generalizing text with
  | nil => rw [List.nil_append, readStrings, if_pos rfl, List.append_nil]
  | cons c cs ih =>
    have hc := hcs c List.mem_cons_self
    rw [List.cons_append, readStrings, if_neg hc.2.2.1, if_pos hc,
      ih (fun d hd => hcs d (List.mem_cons_of_mem _ hd)), List.append_assoc, List.singleton_append]

theorem readStrings_quote {t : String} (ht : ∀ c ∈ t.toList, Unescaped c) (done : List String) (rest : List Char) :
    readStrings .item done (quote t ++ rest) = readStrings .after (done ++ [t]) rest := by
  rw [quote, List.cons_append, readStrings, if_pos rfl, List.append_assoc, List.singleton_append,
    readStrings_inside ht, List.nil_append, String.ofList_toList]

theorem readStrings_array (t : String) {ts : List String} (hts : ∀ u ∈ t :: ts, ∀ c ∈ u.toList, Unescaped c)
    (done : List String) :
    readStrings .item done (List.intercalate [','] ((t :: ts).map quote) ++ [']']) = some (done ++ t :: ts) := by
  induction ts generalizing t done with
  | nil =>
    rw [List.map_singleton, List.intercalate_singleton, readStrings_quote (hts t List.mem_cons_self)]
    rfl
  | cons u ts ih =>
    rw [List.map_cons, List.map_cons, List.intercalate_cons_cons, List.append_assoc, List.append_assoc,
      readStrings_quote (hts t List.mem_cons_self), List.singleton_append, readStrings, if_pos rfl]
    have hrest := ih u (fun x hx => hts x (List.mem_cons_of_mem _ hx)) (done ++ [t])
    rw [List.map_cons] at hrest
    rw [hrest, List.append_assoc, List.singleton_append]

/-- The libraries as far as the texts of sets go. -/
def textLibrary : TextLibrary := ⟨textParser, Nat.log2, unmarshalStrings⟩

theorem textLibrary_parseCIDR (s : String) : textLibrary.parser.parseCIDR s = parseCIDR s.toList := rfl

theorem textLibrary_unmarshal (v : List Char) : textLibrary.unmarshal v = unmarshalStrings v := rfl

theorem textLibrary_correct : textLibrary.Correct where
  ip := parseIP_uitoa
  address a := by rw [textLibrary_parseCIDR, toList_uitoa, parseCIDR_dotted (length_uiton a)]
  network a ones hones := by
    have hones32 : 32 - (32 - ones) = ones := by omega
    have hnet := parseCIDR_network (length_uiton a) (Nat.sub_le 32 ones)
    rw [hones32] at hnet
    rw [textLibrary_parseCIDR, ← hnet]
    simp [toList_uitoa]
  log2 k _ := Nat.log2_two_pow
  null := by decide
  strings ts hts := by
    cases ts with
    | nil => decide
    | cons t ts =>
      obtain ⟨rest, hrest⟩ := Digits.exists_intercalate_cons [','] (quote t) (ts.map quote)
      have htext : arrayText (t :: ts) = '[' :: '"' :: (t.toList ++ '"' :: (rest ++ [']'])) := by
        rw [arrayText, List.map_cons, hrest, quote]
        simp
      have hother : ¬ (arrayText (t :: ts) = "null".toList ∨ arrayText (t :: ts) = "[]".toList) := by
        rw [htext]
        simp
      have hopen : (arrayText (t :: ts)).head? = some '[' := rfl
      rw [textLibrary_unmarshal, unmarshalStrings, if_neg hother, if_pos hopen]
      exact readStrings_array t hts []

end Decoder

/-- The text of a reachable set reads back as a set with the same members, and the text of a canonical
net as the net. -/
theorem marshalJSON_roundTrip (lib : TextLibrary) (hc : lib.Correct) :
    (∀ i, Reachable i → ∀ (ord : Order IPNet Unit) (ords : Nat → Order IPNet Unit),
      ∃ j, newIPNetSet.unmarshalJSONText lib ords (i.marshalJSON lib ord) = some j ∧
        ∀ n, n ∈ j.inets ↔ n ∈ i.inets) ∧
    ∀ n : IPNet, n.Canonical → lib.parser.atoin (n.string lib) = some n := by
  apply And.intro
  · intro i hi ord ords
    obtain ⟨ms, hrep⟩ := hi.represents
    exact unmarshalJSONText_marshalJSON hc hrep ord ords
  · intro n hn
    exact atoin_string_eq hc hn

/-- A set of a network and an address outside it. -/
def mixedSet : Option IPNetSet :=
  runOps [.add .stored ⟨0x0a000000, 0xff000000⟩, .add .stored ⟨0xc0a80101, uint32Max⟩] newIPNetSet

theorem marshalJSON_roundTrip_mixedSet :
    textLibrary.Correct ∧ ∃ i, Reachable i ∧ i.marshalJSON textLibrary .stored = "[\"192.168.1.1\",\"10.0.0.0/8\"]".toList ∧
      ∃ j, newIPNetSet.unmarshalJSONText textLibrary (fun _ => .stored) (i.marshalJSON textLibrary .stored) = some j ∧
        ∀ n, n ∈ j.inets ↔ n ∈ i.inets := by
  have hrun : (mixedSet.map fun i => i.marshalJSON textLibrary .stored) =
      some "[\"192.168.1.1\",\"10.0.0.0/8\"]".toList := by decide +kernel
  obtain ⟨i, hi, htext⟩ := Option.map_eq_some_iff.mp hrun
  have hreach : Reachable i := by
    refine ⟨_, ?_, hi⟩
    intro op hop
    obtain rfl | hop := List.mem_cons.mp hop
    · exact ⟨⟨24, by decide, by decide⟩, by decide⟩
    · rw [List.mem_singleton.mp hop]
      exact single_canonical _
  exact ⟨textLibrary_correct, i, hreach, htext,
    (marshalJSON_roundTrip textLibrary textLibrary_correct).1 i hreach .stored fun _ => .stored⟩

end Dni
