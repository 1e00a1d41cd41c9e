import Dni.AddrText
import Dni.MergeIRanges
import Dni.Lib.Cover

namespace Dni

open Bytes Dyadic SortSearch Loops

/-- `net.ParseError`. -/
structure ParseError where
  type : String
  text : List Char
deriving DecidableEq

def ipStrToIRange (text : List Char) : Except ParseError (IRange IP) :=
  if '/' ∈ text then
    match parseCIDR text with
    | some network => .ok (.net network.ip network.mask)
    | none => .error ⟨"CIDR address", text⟩
  else
    match parseIP text with
    | some ip => .ok (.ip ip)
    | none =>
      if '-' ∈ text then
        match parseIP (text.takeWhile (· ≠ '-')), parseIP (text.drop ((text.takeWhile (· ≠ '-')).length + 1)) with
        | some start, some stop =>
          if start.length = stop.length ∧ !lessThan stop start then .ok (.range ⟨start, stop⟩)
          else .error ⟨"range", text⟩
        | _, _ => .error ⟨"range", text⟩
      else .error ⟨"ip/CIDR address/range", text⟩

/-- The IPv4 addresses that a text stands for: a network, a range with both its ends, or one address. -/
def TextCovers (text : List Char) (a : UInt32) : Prop :=
  if '/' ∈ text then
    ∃ ip n, parseIPv4 (text.takeWhile (· ≠ '/')) = some ip ∧ dtoi (text.drop ((text.takeWhile (· ≠ '/')).length + 1)) = some n ∧
      a.toNat / 2 ^ (32 - n) = val ip / 2 ^ (32 - n)
  else if '-' ∈ text then
    ∃ start stop, parseIPv4 (text.takeWhile (· ≠ '-')) = some start ∧
      parseIPv4 (text.drop ((text.takeWhile (· ≠ '-')).length + 1)) = some stop ∧ val start ≤ a.toNat ∧ a.toNat ≤ val stop
  else parseIPv4 text = some (uiton a)

/-- The IPv4 addresses of a network, in either form that holds one. -/
def NetIPNet.CoversV4 (n : NetIPNet) (a : UInt32) : Prop := n.Covers (uiton a) ∨ n.Covers (v4InV6Prefix ++ uiton a)

/-- What the merge of a list of texts has to be. -/
structure MergedTexts (texts : List (List Char)) (nets : List NetIPNet) : Prop where
  disjoint : nets.Pairwise fun m n => ∀ a, ¬ (m.CoversV4 a ∧ n.CoversV4 a)
  covers : ∀ a, (∃ n ∈ nets, n.CoversV4 a) ↔ ∃ t ∈ texts, TextCovers t a
  minimal : ∀ ds : List Dyadic.Block, (∀ x, (∃ d ∈ ds, x ∈ d) ↔ ∃ a : UInt32, a.toNat = x ∧ ∃ t ∈ texts, TextCovers t a) →
    nets.length ≤ ds.length

/-- The addresses of the texts with a prefix length, or of those without. -/
def KindCovers (texts : List (List Char)) (slash : Bool) (a : UInt32) : Prop :=
  ∃ t ∈ texts, decide ('/' ∈ t) = slash ∧ TextCovers t a

/-- The networks among the texts and the other texts have nothing to merge with each other: no address is in both,
and a block of addresses is in one of the two whenever it is in their union. -/
structure KindsApart (texts : List (List Char)) : Prop where
  disjoint : ∀ a, ¬ (KindCovers texts true a ∧ KindCovers texts false a)
  blocks : ∀ c : Dyadic.Block, (∀ x ∈ c, ∃ a : UInt32, a.toNat = x ∧ ∃ t ∈ texts, TextCovers t a) →
    ∃ slash, ∀ a : UInt32, a.toNat ∈ c → KindCovers texts slash a

section Parse

theorem parseIPv4Loop_spec {cs : List Char} {v digLen : Nat} {fields ip : IP} (hf : fields.length ≤ 3)
    (h : parseIPv4Loop v digLen fields cs = some ip) :
    ip.length = 4 ∧ ∀ c ∈ cs, c.isDigit = true ∨ c = '.' := by
  induction cs generalizing v digLen fields with
  | nil =>
    rw [parseIPv4Loop] at h
    split at h
    next => cases h
    next hc =>
      cases h
      rw [List.length_append, List.length_singleton]
      exact ⟨by omega, by simp⟩
  | cons c cs ih =>
    rw [parseIPv4Loop] at h
    split at h
    next hd =>
      obtain ⟨v', -, h⟩ := Option.bind_eq_some_iff.mp h
      obtain ⟨hlen, hall⟩ := ih hf h
      exact ⟨hlen, List.forall_mem_cons.mpr ⟨Or.inl hd, hall⟩⟩
    next hd =>
      split at h
      next hdot =>
        split at h
        next => cases h
        next hroom =>
          have hf' : (fields ++ [UInt8.ofNat v]).length ≤ 3 := by
            rw [List.length_append, List.length_singleton]
            omega
          obtain ⟨hlen, hall⟩ := ih hf' h
          exact ⟨hlen, List.forall_mem_cons.mpr ⟨Or.inr hdot, hall⟩⟩
      next => cases h

theorem parseIPv4_spec {cs : List Char} {ip : IP} (h : parseIPv4 cs = some ip) :
    ip.length = 4 ∧ ∀ c ∈ cs, c.isDigit = true ∨ c = '.' :=
  parseIPv4Loop_spec (by simp) h

theorem parseIP_spec {cs : List Char} {ip : IP} (h : parseIP cs = some ip) :
    ∃ b, parseIPv4 cs = some b ∧ ip = v4InV6Prefix ++ b := by
  rw [parseIP] at h
  split at h
  next =>
    obtain ⟨b, hb, hip⟩ := Option.map_eq_some_iff.mp h
    exact ⟨b, hb, hip.symm⟩
  next => cases h

theorem parseCIDR_spec {cs : List Char} {n : NetIPNet} (h : parseCIDR cs = some n) :
    ∃ b ones, parseIPv4 (cs.takeWhile (· ≠ '/')) = some b ∧
      dtoi (cs.drop ((cs.takeWhile (· ≠ '/')).length + 1)) = some ones ∧ ones ≤ 32 ∧
      n = ⟨List.zipWith (· &&& ·) b (cidrMask ones 32), cidrMask ones 32⟩ := by
  rw [parseCIDR] at h
  split at h
  next => cases h
  next hc =>
    obtain ⟨ip, hip, h⟩ := Option.bind_eq_some_iff.mp h
    obtain ⟨ones, hones, h⟩ := Option.bind_eq_some_iff.mp h
    split at h
    next => cases h
    next hle =>
      cases h
      obtain ⟨long, hlong, hto⟩ := Option.bind_eq_some_iff.mp hip
      obtain ⟨b, hb, heq⟩ := parseIP_spec hlong
      rw [heq, to4_mapped (parseIPv4_spec hb).1] at hto
      cases hto
      exact ⟨_, ones, hb, hones, Nat.not_lt.mp hle, rfl⟩

/-- The bytes that the parser gives for an address: four for a network, sixteen else. -/
def inForm (slash : Bool) (a : UInt32) : IP := if slash then uiton a else v4InV6Prefix ++ uiton a

def formLength (slash : Bool) : Nat := if slash then 4 else 16

def formBase (slash : Bool) : Nat := if slash then 0 else 0xffff * 2 ^ 32

theorem formLength_family (slash : Bool) : Family (formLength slash) := by
  cases slash
  · exact Or.inr rfl
  · exact Or.inl rfl

@[simp] theorem length_inForm (slash : Bool) (a : UInt32) : (inForm slash a).length = formLength slash := by
  cases slash <;> rfl

theorem val_inForm (slash : Bool) (a : UInt32) : val (inForm slash a) = formBase slash + a.toNat := by
  have hp : val v4InV6Prefix = 0xffff := by decide
  cases slash with
  | true => rw [inForm, if_pos rfl, val_uiton, formBase, if_pos rfl, Nat.zero_add]
  | false =>
    rw [inForm, if_neg Bool.false_ne_true, val_append, length_uiton, val_uiton, hp, formBase,
      if_neg Bool.false_ne_true]
    rfl

theorem inForm_inj {s s' : Bool} {a b : UInt32} (h : inForm s a = inForm s' b) : s = s' ∧ a = b := by
  have hl := congrArg List.length h
  have hv := congrArg val h
  rw [length_inForm, length_inForm] at hl
  rw [val_inForm, val_inForm] at hv
  have hs : s = s' := by
    cases s <;> cases s' <;> first | rfl | exact absurd hl (by decide)
  subst hs
  exact ⟨rfl, UInt32.toNat_inj.mp (by omega)⟩

theorem exists_inForm {slash : Bool} {x : IP} (hl : x.length = formLength slash) (hlo : formBase slash ≤ val x)
    (hhi : val x < formBase slash + 2 ^ 32) : ∃ a, x = inForm slash a ∧ val x = formBase slash + a.toNat := by
  have ha : (UInt32.ofNat (val x - formBase slash)).toNat = val x - formBase slash := by
    rw [UInt32.toNat_ofNat', Nat.mod_eq_of_lt (by omega)]
  have hv : val x = formBase slash + (UInt32.ofNat (val x - formBase slash)).toNat := by
    rw [ha]
    omega
  refine ⟨UInt32.ofNat (val x - formBase slash), val_inj ?_ ?_, hv⟩
  · rw [hl, length_inForm]
  · rw [val_inForm, ← hv]

theorem exists_uiton {b : IP} (h : b.length = 4) : ∃ a, b = uiton a ∧ val b = a.toNat := by
  have hlt := val_lt b
  rw [h] at hlt
  obtain ⟨a, ha, hv⟩ := exists_inForm (show b.length = formLength true from h) (Nat.zero_le _)
    (by simpa [formBase] using hlt)
  exact ⟨a, ha, by simpa [formBase] using hv⟩

/-- The network of an address and a prefix length. -/
theorem masked_isBlock {b : IP} {ones : Nat} (hb : b.length = 4) (hle : ones ≤ 32) :
    IsBlock 4 ⟨List.zipWith (· &&& ·) b (cidrMask ones 32), cidrMask ones 32⟩
      ⟨val b / 2 ^ (32 - ones) * 2 ^ (32 - ones), 32 - ones, dvd_mul_left _ _⟩ := by
  have hlt := val_lt b
  rw [hb] at hlt
  have hml := length_cidrMask_short ones hle
  have hmv : val (cidrMask ones 32) = (2 ^ (32 - (32 - ones)) - 1) * 2 ^ (32 - ones) := by
    have hm := cidrMask_eq (Or.inl rfl : Family 4) (show ones ≤ 8 * 4 from hle)
    have hv : val (cidrMaskBytes 4 (8 * 4 - (32 - ones))) = (2 ^ (8 * 4 - (32 - ones)) - 1) * 2 ^ (32 - ones) :=
      val_cidrMaskBytes (by omega)
    rw [show 8 * 4 - (32 - ones) = ones by omega] at hv
    rw [show (32 : Nat) = 8 * 4 from rfl, hm, hv]
    congr 3
    omega
  refine ⟨?_, ?_, by dsimp only; omega, ?_⟩
  · rw [List.length_zipWith, hb, hml]
    rfl
  · rw [val_zipWith_and (by rw [hb, hml]), hmv]
    exact and_mask_eq (Nat.sub_le _ _) hlt
  · dsimp only
    congr 1
    omega

theorem network_spec {text : List Char} {n : NetIPNet} (hslash : '/' ∈ text) (h : parseCIDR text = some n) :
    n.Canonical ∧ ∀ x, n.Covers x ↔ ∃ a, x = inForm true a ∧ TextCovers text a := by
  obtain ⟨b, ones, hb, hones, hle, hnet⟩ := parseCIDR_spec h
  have hblen := (parseIPv4_spec hb).1
  have hblock := masked_isBlock hblen hle
  rw [← hnet] at hblock
  refine ⟨hblock.canonical (Or.inl rfl), ?_⟩
  intro x
  have hcov := hblock.covers_iff (Or.inl rfl) x
  rw [mem_iff_div] at hcov
  dsimp only at hcov
  rw [Nat.mul_div_cancel _ (Nat.two_pow_pos _)] at hcov
  simp only [TextCovers, if_pos hslash]
  rw [hcov]
  apply Iff.intro
  · intro ⟨hl, hx⟩
    obtain ⟨a, ha, hv⟩ := exists_uiton hl
    exact ⟨a, ha, b, ones, hb, hones, hv ▸ hx⟩
  · intro ⟨a, ha, b', ones', hb', hones', hx⟩
    rw [hb] at hb'
    rw [hones] at hones'
    cases hb'
    cases hones'
    rw [ha, inForm, if_pos rfl, length_uiton, val_uiton]
    exact ⟨rfl, hx⟩

theorem address_spec {text : List Char} {ip : IP} (hslash : '/' ∉ text) (h : parseIP text = some ip) :
    Family ip.length ∧ ∀ x, x = ip ↔ ∃ a, x = inForm false a ∧ TextCovers text a := by
  obtain ⟨b, hb, hip⟩ := parseIP_spec h
  obtain ⟨hlen, hchars⟩ := parseIPv4_spec hb
  have hdash : '-' ∉ text := fun hd => by simpa using hchars _ hd
  obtain ⟨a, ha, -⟩ := exists_uiton hlen
  subst hip ha
  simp only [TextCovers, if_neg hslash, if_neg hdash, hb, Option.some.injEq]
  refine ⟨Or.inr (by simp [v4InV6Prefix]), ?_⟩
  intro x
  apply Iff.intro
  · intro hx
    exact ⟨a, hx, rfl⟩
  · intro h
    rcases h with ⟨a', hx, ha'⟩
    exact hx.trans (congrArg (v4InV6Prefix ++ ·) ha'.symm)

theorem range_spec {text : List Char} {start stop : IP} (hslash : '/' ∉ text) (hdash : '-' ∈ text)
    (hstart : parseIP (text.takeWhile (· ≠ '-')) = some start)
    (hstop : parseIP (text.drop ((text.takeWhile (· ≠ '-')).length + 1)) = some stop)
    (hrange : start.length = stop.length ∧ !lessThan stop start) :
    (⟨start, stop⟩ : Range IP).Valid ∧
      ∀ x, (⟨start, stop⟩ : Range IP).Covers x ↔ ∃ a, x = inForm false a ∧ TextCovers text a := by
  obtain ⟨b, hb, hstart⟩ := parseIP_spec hstart
  obtain ⟨c, hc, hstop⟩ := parseIP_spec hstop
  obtain ⟨lo, hlo, hlov⟩ := exists_uiton (parseIPv4_spec hb).1
  obtain ⟨hi, hhi, hhiv⟩ := exists_uiton (parseIPv4_spec hc).1
  have hstart' : start = inForm false lo := by rw [hstart, hlo]; rfl
  have hstop' : stop = inForm false hi := by rw [hstop, hhi]; rfl
  have hle : val start ≤ val stop := by
    by_contra hgt
    have hless := (lessThan_iff hrange.1.symm).mpr (Nat.not_le.mp hgt)
    rw [hless] at hrange
    exact Bool.false_ne_true hrange.2
  have hlen : start.length = 16 := by rw [hstart', length_inForm]; rfl
  have hv := val_inForm false lo
  have hv' := val_inForm false hi
  have hhi32 := UInt32.toNat_lt hi
  refine ⟨⟨Or.inr hlen, hrange.1.symm, hle⟩, ?_⟩
  intro x
  simp only [TextCovers, if_neg hslash, if_pos hdash, hb, hc, Option.some.injEq, exists_and_left, exists_eq_left']
  rw [Range.Covers, hstart', hstop', hv, hv', length_inForm, hlov, hhiv]
  apply Iff.intro
  · intro h
    rcases h with ⟨hl, hlow, hhigh⟩
    obtain ⟨a, ha, hav⟩ := exists_inForm hl (by omega) (by omega)
    exact ⟨a, ha, by omega, by omega⟩
  · intro h
    rcases h with ⟨a, ha, hlow, hhigh⟩
    rw [ha, length_inForm, val_inForm]
    exact ⟨rfl, by omega, by omega⟩

/-- The parsed value holds the addresses of its text, all of them in the one form. -/
theorem ipStrToIRange_spec {text : List Char} {i : IRange IP} (h : ipStrToIRange text = .ok i) :
    i.Valid ∧ ∀ x, i.Covers x ↔ ∃ a, x = inForm (decide ('/' ∈ text)) a ∧ TextCovers text a := by
  unfold ipStrToIRange at h
  by_cases hslash : '/' ∈ text
  · rw [if_pos hslash] at h
    rw [decide_eq_true hslash]
    split at h
    next n hn =>
      cases h
      exact network_spec hslash hn
    next => cases h
  · rw [if_neg hslash] at h
    rw [decide_eq_false hslash]
    split at h
    next ip hip =>
      cases h
      exact address_spec hslash hip
    next =>
      split at h
      next hdash =>
        split at h
        next start stop hstart hstop =>
          split at h
          next hrange =>
            cases h
            exact range_spec hslash hdash hstart hstop hrange
          next => cases h
        next => cases h
      next => cases h

end Parse

/-- The addresses `c` covers within the IPv4 ones of its form. -/
structure V4Block (slash : Bool) (n : NetIPNet) (b : Dyadic.Block) : Prop where
  canonical : n.Canonical
  covers : ∀ x, n.Covers x ↔ ∃ a : UInt32, x = inForm slash a ∧ a.toNat ∈ b
  bound : b.next ≤ 2 ^ 32

theorem V4Block.of_isBlock {slash : Bool} {n : NetIPNet} {b c : Dyadic.Block} (hn : IsBlock (formLength slash) n c)
    (hk : c.k = b.k) (hbase : c.base = formBase slash + b.base) (hb : b.next ≤ 2 ^ 32) : V4Block slash n b := by
  have hf := formLength_family slash
  refine ⟨hn.canonical hf, ?_, hb⟩
  intro x
  rw [hn.covers_iff hf, mem_def, hbase, hk]
  rw [Block.next] at hb
  apply Iff.intro
  · intro h
    rcases h with ⟨hl, hlo, hhi⟩
    obtain ⟨a, ha, hv⟩ := exists_inForm hl (by omega) (by omega)
    refine ⟨a, ha, ?_⟩
    rw [mem_def]
    omega
  · intro h
    rcases h with ⟨a, ha, hlo, hhi⟩
    rw [Block.next] at hhi
    rw [ha, length_inForm, val_inForm]
    exact ⟨rfl, by omega, by omega⟩

/-- Every block of IPv4 addresses is a network in each of the two forms. -/
theorem exists_net (slash : Bool) {b : Dyadic.Block} (hb : b.next ≤ 2 ^ 32) : ∃ n, V4Block slash n b := by
  have hk : b.k ≤ 32 := by
    by_contra hk
    have hpow : 2 ^ 33 ≤ 2 ^ b.k := Nat.pow_le_pow_right (by omega) (by omega)
    rw [Block.next] at hb
    omega
  have hdvd : 2 ^ b.k ∣ formBase slash + b.base := by
    apply Nat.dvd_add _ b.aligned
    have h32 : 2 ^ b.k ∣ 2 ^ 32 := pow_dvd_pow 2 hk
    cases slash
    · exact Nat.dvd_mul_left_of_dvd h32 _
    · exact dvd_zero _
  have hlt := b.base_lt_next
  have ha : (UInt32.ofNat b.base).toNat = b.base := by rw [UInt32.toNat_ofNat', Nat.mod_eq_of_lt (by omega)]
  have hbits : b.k ≤ 8 * formLength slash := by cases slash <;> simp [formLength] <;> omega
  have hblock : IsBlock (formLength slash)
      ⟨inForm slash (UInt32.ofNat b.base), cidrMask (8 * formLength slash - b.k) (8 * formLength slash)⟩
      ⟨formBase slash + b.base, b.k, hdvd⟩ := by
    refine ⟨length_inForm _ _, ?_, hbits, rfl⟩
    rw [val_inForm, ha]
  exact ⟨_, V4Block.of_isBlock hblock rfl rfl hb⟩

/-- An aligned network at an IPv4 address has no other addresses. -/
theorem NetIPNet.Canonical.v4Block {n : NetIPNet} (h : n.Canonical) {slash : Bool} {a : UInt32}
    (hip : n.ip = inForm slash a) : ∃ b, V4Block slash n b := by
  obtain ⟨c, hc⟩ := h.block
  rw [hip, length_inForm] at hc
  have hbase : c.base = formBase slash + a.toNat := by rw [← hc.2.1, hip, val_inForm]
  have hlt := UInt32.toNat_lt a
  have hk : c.k ≤ 32 := by
    cases slash with
    | true => exact hc.2.2.1
    | false =>
      by_contra hk
      have hdvd : 2 ^ 33 ∣ c.base := (Nat.pow_dvd_pow 2 (by omega)).trans c.aligned
      rw [hbase, formBase, if_neg Bool.false_ne_true] at hdvd
      omega
  have h32 : 2 ^ c.k ∣ 2 ^ 32 := pow_dvd_pow 2 hk
  have hform : 2 ^ c.k ∣ formBase slash := by
    cases slash
    · exact Nat.dvd_mul_left_of_dvd h32 _
    · exact dvd_zero _
  have hdvd : 2 ^ c.k ∣ a.toNat := (Nat.dvd_add_right hform).mp (hbase ▸ c.aligned)
  refine ⟨⟨a.toNat, c.k, hdvd⟩, V4Block.of_isBlock hc rfl hbase ?_⟩
  obtain ⟨m, hm⟩ := hdvd
  obtain ⟨w, hw⟩ := h32
  have hmw : m < w := Nat.lt_of_mul_lt_mul_left (a := 2 ^ c.k) (by omega)
  have hle := Nat.mul_le_mul_left (2 ^ c.k) (Nat.succ_le_of_lt hmw)
  rw [Block.next]
  dsimp only
  rw [hm, hw, ← Nat.mul_succ]
  exact hle

theorem coversV4_iff (n : NetIPNet) (a : UInt32) : n.CoversV4 a ↔ ∃ slash, n.Covers (inForm slash a) := by
  rw [Bool.exists_bool, or_comm]
  rfl

theorem exists_forall₂ {α β : Type*} {P : α → β → Prop} {xs : List α} (h : ∀ x ∈ xs, ∃ y, P x y) :
    ∃ ys, List.Forall₂ P xs ys := by
  induction xs with
  | nil => exact ⟨[], .nil⟩
  | cons x xs ih =>
    obtain ⟨y, hy⟩ := h x List.mem_cons_self
    obtain ⟨ys, hys⟩ := ih fun z hz => h z (List.mem_cons_of_mem _ hz)
    exact ⟨y :: ys, .cons hy hys⟩

section Merge

variable {texts : List (List Char)} {nets : List NetIPNet}

theorem kinds_or {a : UInt32} : (∃ t ∈ texts, TextCovers t a) ↔ ∃ slash, KindCovers texts slash a := by
  apply Iff.intro
  · intro ⟨t, ht, hta⟩
    exact ⟨_, t, ht, rfl, hta⟩
  · intro ⟨_, t, ht, _, hta⟩
    exact ⟨t, ht, hta⟩

theorem kind_unique (h : ∀ a, ¬ (KindCovers texts true a ∧ KindCovers texts false a)) {s s' : Bool} {a : UInt32}
    (ha : KindCovers texts s a) (ha' : KindCovers texts s' a) : s = s' := by
  cases s with
  | true =>
    cases s' with
    | true => rfl
    | false => exact absurd ⟨ha, ha'⟩ (h a)
  | false =>
    cases s' with
    | true => exact absurd ⟨ha', ha⟩ (h a)
    | false => rfl

/-- What the merge gives: for each of the two kinds of texts its networks in its form. -/
structure ByKind (texts : List (List Char)) (nets : List NetIPNet) : Prop where
  covers : ∀ x, (∃ n ∈ nets, n.Covers x) ↔ ∃ slash a, x = inForm slash a ∧ KindCovers texts slash a
  canonical : ∀ n ∈ nets, n.Canonical
  ascending : nets.Pairwise NetIPNet.Before
  minimal : ∀ other : List NetIPNet, (∀ n ∈ other, n.Canonical) →
    (∀ x, (∃ n ∈ other, n.Covers x) ↔ ∃ slash a, x = inForm slash a ∧ KindCovers texts slash a) →
    nets.length ≤ other.length

namespace ByKind

theorem coversV4 (h : ByKind texts nets) (a : UInt32) :
    (∃ n ∈ nets, n.CoversV4 a) ↔ ∃ t ∈ texts, TextCovers t a := by
  rw [kinds_or]
  apply Iff.intro
  · intro ⟨n, hn, ha⟩
    obtain ⟨slash, hx⟩ := (coversV4_iff n a).mp ha
    obtain ⟨s, b, heq, hb⟩ := (h.covers _).mp ⟨n, hn, hx⟩
    obtain ⟨hs, hab⟩ := inForm_inj heq
    exact ⟨s, hab ▸ hb⟩
  · intro ⟨slash, ha⟩
    obtain ⟨n, hn, hx⟩ := (h.covers (inForm slash a)).mpr ⟨slash, a, rfl, ha⟩
    exact ⟨n, hn, (coversV4_iff n a).mpr ⟨slash, hx⟩⟩

/-- The block of a network, in the form of the texts that it comes from. -/
theorem block (h : ByKind texts nets) {n : NetIPNet} (hn : n ∈ nets) :
    ∃ b slash, V4Block slash n b ∧ ∀ a : UInt32, a.toNat ∈ b → KindCovers texts slash a := by
  obtain ⟨slash, a, hip, -⟩ := (h.covers n.ip).mp ⟨n, hn, n.covers_ip⟩
  obtain ⟨b, hb⟩ := (h.canonical n hn).v4Block hip
  refine ⟨b, slash, hb, ?_⟩
  intro a' ha'
  obtain ⟨s, c, heq, hc⟩ := (h.covers (inForm slash a')).mp ⟨n, hn, (hb.covers _).mpr ⟨a', rfl, ha'⟩⟩
  obtain ⟨hs, hac⟩ := inForm_inj heq
  rw [hs, hac]
  exact hc

/-- The networks are disjoint exactly when no address is in both kinds. -/
theorem disjoint_iff (h : ByKind texts nets) :
    (nets.Pairwise fun m n => ∀ a, ¬ (m.CoversV4 a ∧ n.CoversV4 a)) ↔
      ∀ a, ¬ (KindCovers texts true a ∧ KindCovers texts false a) := by
  apply Iff.intro
  · intro hdis a ⟨ht, hf⟩
    obtain ⟨m, hm, hma⟩ := (h.covers (inForm true a)).mpr ⟨true, a, rfl, ht⟩
    obtain ⟨n, hn, hna⟩ := (h.covers (inForm false a)).mpr ⟨false, a, rfl, hf⟩
    have hne : n ≠ m := by
      intro heq
      rw [heq] at hna
      have hl := hma.1.trans hna.1.symm
      rw [length_inForm, length_inForm] at hl
      exact absurd hl (by decide)
    have hma' := (coversV4_iff m a).mpr ⟨true, hma⟩
    have hna' := (coversV4_iff n a).mpr ⟨false, hna⟩
    obtain hmn | hnm := pairwise_or hdis hm hn hne
    · exact hmn a ⟨hma', hna'⟩
    · exact hnm a ⟨hna', hma'⟩
  · intro hkinds
    apply h.ascending.imp_of_mem
    intro m n hm hn hbefore a ⟨hma, hna⟩
    obtain ⟨s, hs⟩ := (coversV4_iff m a).mp hma
    obtain ⟨s', hs'⟩ := (coversV4_iff n a).mp hna
    have hkind : ∀ {n : NetIPNet} {s : Bool}, n ∈ nets → n.Covers (inForm s a) → KindCovers texts s a := by
      intro n s hn hna
      obtain ⟨s', b, heq, hb⟩ := (h.covers _).mp ⟨n, hn, hna⟩
      obtain ⟨hs, hab⟩ := inForm_inj heq
      rw [hs, hab]
      exact hb
    have hss := kind_unique hkinds (hkind hm hs) (hkind hn hs')
    subst hss
    exact hbefore.disjoint hs hs'

/-- With the kinds apart a shortest list of blocks is a shortest list of networks in the two forms. -/
theorem minimal_of_apart (h : ByKind texts nets) (hk : KindsApart texts) {ds : List Dyadic.Block}
    (hd : ∀ x, (∃ d ∈ ds, x ∈ d) ↔ ∃ a : UInt32, a.toNat = x ∧ ∃ t ∈ texts, TextCovers t a) :
    nets.length ≤ ds.length := by
  have hnet : ∀ d ∈ ds, ∃ n, ∃ slash, V4Block slash n d ∧ ∀ a : UInt32, a.toNat ∈ d → KindCovers texts slash a := by
    intro d hdin
    obtain ⟨slash, hin⟩ := hk.blocks d fun x hx => (hd x).mp ⟨d, hdin, hx⟩
    have hbound : d.next ≤ 2 ^ 32 := by
      have hlt := d.base_lt_next
      obtain ⟨a, ha, -⟩ := (hd (d.next - 1)).mp ⟨d, hdin, by omega, by omega⟩
      have := UInt32.toNat_lt a
      omega
    obtain ⟨n, hn⟩ := exists_net slash hbound
    exact ⟨n, slash, hn, hin⟩
  obtain ⟨other, hother⟩ := exists_forall₂ hnet
  rw [hother.length_eq]
  apply h.minimal
  · intro n hn
    obtain ⟨d, -, slash, hv, -⟩ := forall₂_exists_right hother.flip hn
    exact hv.canonical
  · intro x
    apply Iff.intro
    · intro ⟨n, hn, hx⟩
      obtain ⟨d, -, slash, hv, hin⟩ := forall₂_exists_right hother.flip hn
      obtain ⟨a, ha, had⟩ := (hv.covers x).mp hx
      exact ⟨slash, a, ha, hin a had⟩
    · intro ⟨slash, a, hx, ha⟩
      obtain ⟨d, hdin, had⟩ := (hd a.toNat).mpr ⟨a, rfl, kinds_or.mpr ⟨slash, ha⟩⟩
      obtain ⟨n, hn, s, hv, hin⟩ := forall₂_exists_right hother hdin
      have hs : s = slash := kind_unique hk.disjoint (hin a had) ha
      subst hs
      exact ⟨n, hn, (hv.covers x).mpr ⟨a, hx, had⟩⟩

/-- A block of addresses that is in neither kind can be put together further. -/
theorem blocks_of_minimal (h : ByKind texts nets)
    (hdis : nets.Pairwise fun m n => ∀ a, ¬ (m.CoversV4 a ∧ n.CoversV4 a))
    (hmin : ∀ ds : List Dyadic.Block, (∀ x, (∃ d ∈ ds, x ∈ d) ↔ ∃ a : UInt32, a.toNat = x ∧ ∃ t ∈ texts, TextCovers t a) →
      nets.length ≤ ds.length) (c : Dyadic.Block)
    (hc : ∀ x ∈ c, ∃ a : UInt32, a.toNat = x ∧ ∃ t ∈ texts, TextCovers t a) :
    ∃ slash, ∀ a : UInt32, a.toNat ∈ c → KindCovers texts slash a := by
  obtain ⟨bs, hbs⟩ := exists_forall₂ fun n hn => h.block hn
  have hv4 : ∀ {n : NetIPNet} {b : Dyadic.Block} {slash : Bool}, V4Block slash n b → ∀ a, n.CoversV4 a ↔ a.toNat ∈ b := by
    intro n b slash hv a
    rw [coversV4_iff]
    apply Iff.intro
    · intro ⟨s, hx⟩
      obtain ⟨a', heq, ha'⟩ := (hv.covers _).mp hx
      exact (inForm_inj heq).2 ▸ ha'
    · intro ha
      exact ⟨slash, (hv.covers _).mpr ⟨a, rfl, ha⟩⟩
  have hmem : ∀ x, (∃ b ∈ bs, x ∈ b) ↔ ∃ a : UInt32, a.toNat = x ∧ ∃ t ∈ texts, TextCovers t a := by
    intro x
    apply Iff.intro
    · intro ⟨b, hb, hx⟩
      obtain ⟨n, hn, slash, hv, -⟩ := forall₂_exists_right hbs.flip hb
      have hof : (UInt32.ofNat x).toNat = x := by
        rw [UInt32.toNat_ofNat', Nat.mod_eq_of_lt (Nat.lt_of_lt_of_le hx.2 hv.bound)]
      refine ⟨UInt32.ofNat x, hof, (h.coversV4 _).mp ⟨n, hn, (hv4 hv _).mpr ?_⟩⟩
      rwa [hof]
    · intro ⟨a, hx, ha⟩
      obtain ⟨n, hn, hna⟩ := (h.coversV4 a).mpr ha
      obtain ⟨b, hb, slash, hv, -⟩ := forall₂_exists_right hbs hn
      exact ⟨b, hb, hx ▸ (hv4 hv a).mp hna⟩
  have hdisjoint : bs.Pairwise fun b b' => ∀ x ∈ b, x ∉ b' := by
    apply forall₂_pairwise hbs.flip hdis
    intro b b' n n' ⟨slash, hv, _⟩ ⟨slash', hv', _⟩ hnn x hx hx'
    have hof : (UInt32.ofNat x).toNat = x := by
      rw [UInt32.toNat_ofNat', Nat.mod_eq_of_lt (Nat.lt_of_lt_of_le hx.2 hv.bound)]
    refine hnn (UInt32.ofNat x) ⟨(hv4 hv _).mpr ?_, (hv4 hv' _).mpr ?_⟩
    · rwa [hof]
    · rwa [hof]
  have hcoarse : Coarsest bs := by
    by_contra hnot
    obtain ⟨ds, hlt, hds⟩ := exists_shorter hdisjoint hnot
    have hle := hmin ds fun x => (hds x).trans (hmem x)
    rw [hbs.length_eq] at hle
    omega
  obtain ⟨b, hb, hin⟩ := hcoarse.absorb c fun x hx => (hmem x).mpr (hc x hx)
  obtain ⟨n, -, slash, -, hkind⟩ := forall₂_exists_right hbs.flip hb
  exact ⟨slash, fun a ha => hkind a (hin _ ha)⟩

theorem right_iff (h : ByKind texts nets) : MergedTexts texts nets ↔ KindsApart texts := by
  apply Iff.intro
  · intro hm
    exact ⟨h.disjoint_iff.mp hm.disjoint, h.blocks_of_minimal hm.disjoint hm.minimal⟩
  · intro hk
    exact ⟨h.disjoint_iff.mpr hk.disjoint, h.coversV4, fun ds hd => h.minimal_of_apart hk hd⟩

end ByKind

end Merge

theorem netLists_inj {ms ns : List NetIPNet}
    (h : some (ms.map fun n => IRange.net n.ip n.mask) = some (ns.map fun n => IRange.net n.ip n.mask)) : ms = ns := by
  apply List.map_injective_iff.mpr _ (Option.some.inj h)
  intro m n hmn
  cases m
  cases n
  injection hmn with hip hmask
  exact congrArg₂ NetIPNet.mk hip hmask

/-- The merge of parsed texts. -/
theorem mergeIRanges_byKind (sort : Sorter (rangeLess (id : IP → IP))) {texts : List (List Char)} {l : List (IRange IP)}
    (h : List.Forall₂ (fun t i => ipStrToIRange t = .ok i) texts l) :
    ∃ nets : List NetIPNet, mergeIRanges sort l = some (nets.map fun n => IRange.net n.ip n.mask) ∧ ByKind texts nets := by
  have hvalid : ∀ i ∈ l, i.Valid := by
    intro i hi
    obtain ⟨t, -, hti⟩ := forall₂_exists_right h.flip hi
    exact (ipStrToIRange_spec hti).1
  have hunion : ∀ x, (∃ i ∈ l, i.Covers x) ↔ ∃ slash a, x = inForm slash a ∧ KindCovers texts slash a := by
    intro x
    apply Iff.intro
    · intro ⟨i, hi, hx⟩
      obtain ⟨t, ht, hti⟩ := forall₂_exists_right h.flip hi
      obtain ⟨a, hxa, hta⟩ := ((ipStrToIRange_spec hti).2 x).mp hx
      exact ⟨_, a, hxa, t, ht, rfl, hta⟩
    · intro ⟨slash, a, hxa, t, ht, hs, hta⟩
      obtain ⟨i, hi, hti⟩ := forall₂_exists_right h ht
      exact ⟨i, hi, ((ipStrToIRange_spec hti).2 x).mpr ⟨a, hs ▸ hxa, hta⟩⟩
  obtain ⟨nets, hmerge, hcov, hcanon, hasc, hmin⟩ := mergeIRanges_union sort _ hvalid hunion
  exact ⟨nets, hmerge, hcov, hcanon, hasc, hmin⟩

/-- Merging parsed texts gives the shortest list of networks for their addresses exactly when the networks among the
texts have nothing to merge with the other texts. -/
theorem mergeTexts_right_iff (sort : Sorter (rangeLess (id : IP → IP))) (texts : List (List Char))
    (l : List (IRange IP)) (h : List.Forall₂ (fun t i => ipStrToIRange t = .ok i) texts l) :
    (∃ nets : List NetIPNet, mergeIRanges sort l = some (nets.map fun n => IRange.net n.ip n.mask) ∧
      MergedTexts texts nets) ↔ KindsApart texts := by
  obtain ⟨nets, hmerge, hkind⟩ := mergeIRanges_byKind sort h
  rw [← hkind.right_iff]
  apply Iff.intro
  · intro ⟨nets', hmerge', hright⟩
    have hsame : nets' = nets := netLists_inj (hmerge'.symm.trans hmerge)
    exact hsame ▸ hright
  · intro hright
    exact ⟨nets, hmerge, hright⟩

/-- Texts of one kind have nothing of the other kind to merge with. -/
theorem KindsApart.of_one_kind {texts : List (List Char)} {slash : Bool}
    (h : ∀ t ∈ texts, decide ('/' ∈ t) = slash) : KindsApart texts := by
  refine ⟨?_, ?_⟩
  · intro a ⟨⟨t, ht, hkind, _⟩, t', ht', hkind', _⟩
    rw [h t ht] at hkind
    rw [h t' ht', hkind] at hkind'
    cases hkind'
  · intro c hc
    refine ⟨slash, fun a ha => ?_⟩
    obtain ⟨a', ha', t, ht, hcov⟩ := hc a.toNat ha
    cases UInt32.toNat_inj.mp ha'
    exact ⟨t, ht, h t ht, hcov⟩

/-- A range, and an address that is in it. -/
def hostTexts : List (List Char) := ["10.0.0.1-10.0.0.6".toList, "10.0.0.4".toList]

def hostRanges : List (IRange IP) :=
  [.range ⟨v4InV6Prefix ++ [10, 0, 0, 1], v4InV6Prefix ++ [10, 0, 0, 6]⟩, .ip (v4InV6Prefix ++ [10, 0, 0, 4])]

theorem mergeTexts_right_iff_hosts : ∃ nets : List NetIPNet, mergeIRanges (rangeSorter id) hostRanges =
    some (nets.map fun n => IRange.net n.ip n.mask) ∧ MergedTexts hostTexts nets := by
  have hparsed : List.Forall₂ (fun t i => ipStrToIRange t = .ok i) hostTexts hostRanges :=
    .cons (by decide +kernel) (.cons (by decide +kernel) .nil)
  have hkind : ∀ t ∈ hostTexts, decide ('/' ∈ t) = false := by decide +kernel
  exact (mergeTexts_right_iff (rangeSorter id) hostTexts hostRanges hparsed).mpr (.of_one_kind hkind)

/-- An address and the network that it is in. -/
def overlappingTexts : List (List Char) := ["10.0.0.0/31".toList, "10.0.0.0".toList]

def overlappingRanges : List (IRange IP) :=
  [.net [10, 0, 0, 0] [255, 255, 255, 254], .ip [0, 0, 0, 0, 0, 0, 0, 0, 0, 0, 255, 255, 10, 0, 0, 0]]

theorem overlapping_parsed : List.Forall₂ (fun t i => ipStrToIRange t = .ok i) overlappingTexts overlappingRanges :=
  .cons (by decide +kernel) (.cons (by decide +kernel) .nil)

theorem overlapping_not_apart : ¬ KindsApart overlappingTexts := by
  intro h
  apply h.disjoint 0x0A000000
  apply And.intro
  · refine ⟨"10.0.0.0/31".toList, List.mem_cons_self, by decide +kernel, ?_⟩
    rw [TextCovers, if_pos (by decide +kernel)]
    exact ⟨[10, 0, 0, 0], 31, by decide +kernel, by decide +kernel, by decide +kernel⟩
  · refine ⟨"10.0.0.0".toList, List.mem_cons_of_mem _ List.mem_cons_self, by decide +kernel, ?_⟩
    rw [TextCovers, if_neg (by decide +kernel), if_neg (by decide +kernel)]
    decide +kernel

/-- The address comes out twice, once in each form. -/
theorem mergeTexts_overlap :
    List.Forall₂ (fun t i => ipStrToIRange t = .ok i) overlappingTexts overlappingRanges ∧
    ¬ ∃ nets : List NetIPNet, mergeIRanges (rangeSorter id) overlappingRanges =
      some (nets.map fun n => IRange.net n.ip n.mask) ∧ MergedTexts overlappingTexts nets := by
  refine ⟨overlapping_parsed, ?_⟩
  intro ⟨nets, hmerge, hright⟩
  obtain ⟨nets', hmerge', hkind⟩ := mergeIRanges_byKind (rangeSorter id) overlapping_parsed
  have hsame : nets = nets' := netLists_inj (hmerge.symm.trans hmerge')
  exact overlapping_not_apart (hkind.right_iff.mp (hsame ▸ hright))

end Dni
