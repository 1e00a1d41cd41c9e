import Dni.IPNetFacts
import Mathlib.Data.List.TakeWhile

namespace Dni

open Bytes Dyadic

/-- `net.IP.String` of the four bytes of an IPv4 address. -/
def dotted (ip : IP) : List Char :=
  List.intercalate ['.'] (ip.map fun b => Nat.toDigits 10 b.toNat)

/-- Uitoa converts a uint32 represented IP to IPv4 string. -/
def uitoa (i : UInt32) : String := String.ofList (dotted (uiton i))

/-- One decimal digit of an octet: no leading zero and at most 255. -/
def octetDigit (val digLen : Nat) (c : Char) : Option Nat :=
  if digLen = 1 ∧ val = 0 then none
  else if 255 < val * 10 + (c.toNat - 48) then none
  else some (val * 10 + (c.toNat - 48))

/-- The loop of `netip.parseIPv4Fields`: the octet being read, its digits, and the octets before. -/
def parseIPv4Loop (val digLen : Nat) (fields : IP) : List Char → Option IP
  | [] => if digLen = 0 ∨ fields.length ≠ 3 then none else some (fields ++ [UInt8.ofNat val])
  | c :: cs =>
    if c.isDigit then
      (octetDigit val digLen c).bind fun v => parseIPv4Loop v (digLen + 1) fields cs
    else if c = '.' then
      if digLen = 0 ∨ fields.length = 3 then none
      else parseIPv4Loop 0 0 (fields ++ [UInt8.ofNat val]) cs
    else none

def parseIPv4 (cs : List Char) : Option IP := parseIPv4Loop 0 0 [] cs

/-- `net.ParseIP`: the first separator tells the family, and an IPv4 address is returned in its
16-byte form. IPv6 texts are left out. -/
def parseIP (cs : List Char) : Option IP :=
  match cs.find? (· ∈ ['.', ':', '%']) with
  | some '.' => (parseIPv4 cs).map (v4InV6Prefix ++ ·)
  | _ => none

/-- `net.IP.To4`. -/
def to4 (ip : IP) : Option IP :=
  if ip.length = 4 then some ip else if isIPv4 ip then some (ip.drop 12) else none

/-- `dtoi` on a whole string; prefix lengths lie far below its bound. -/
def dtoi (cs : List Char) : Option Nat :=
  if cs = [] ∨ !cs.all Char.isDigit then none else some (Nat.ofDigitChars 10 cs 0)

/-- `net.ParseCIDR` for an IPv4 network, its host bits cleared. -/
def parseCIDR (cs : List Char) : Option NetIPNet :=
  let addr := cs.takeWhile (· ≠ '/')
  if cs.length = addr.length then none
  else do
    let ip ← (parseIP addr).bind to4
    let n ← dtoi (cs.drop (addr.length + 1))
    if 32 < n then none
    else some ⟨List.zipWith (· &&& ·) ip (cidrMask n 32), cidrMask n 32⟩

/-- Atoin reads a network or a single address; of a longer one it takes the first four bytes. -/
def atoinWith (parseCIDR : String → Option NetIPNet) (parseIP : String → Option IP) (ipstr : String) :
    Option IPNet :=
  match parseCIDR ipstr with
  | some ipnet => ipnet.toIPNet
  | none => do
    let ip ← (parseIP ipstr).bind to4
    let i ← ntoui ip
    return ⟨i, uint32Max⟩

def atoin (ipstr : String) : Option IPNet :=
  atoinWith (fun s => parseCIDR s.toList) (fun s => parseIP s.toList) ipstr

/-- `simpleMaskLength`: the leading ones, if nothing but zeros follows. -/
def simpleMaskLength : IP → Option Nat
  | [] => some 0
  | v :: rest =>
    if v = 0xff then (simpleMaskLength rest).map (8 + ·)
    else
      let n := leadingZeros8 (~~~v)
      if v <<< UInt8.ofNat n ≠ 0 then none else if rest.all (· == 0) then some n else none

/-- `net.IPMask.String`. -/
def maskHex (mask : IP) : List Char :=
  mask.flatMap fun b => [Nat.digitChar (b.toNat / 16), Nat.digitChar (b.toNat % 16)]

/-- `net.IPNet.String` of the networks that have an IPv4 form: the last four bytes of a long mask
go with the four of the address. -/
def NetIPNet.string (n : NetIPNet) : Option String := do
  let ip ← to4 n.ip
  let m := if n.mask.length = 16 then n.mask.drop 12 else n.mask
  if m.length ≠ 4 then none
  else
    let len := match simpleMaskLength m with
      | some l => Nat.toDigits 10 l
      | none => maskHex m
    some (String.ofList (dotted ip ++ '/' :: len))

theorem parseIPv4Loop_digits (fields : IP) (rest : List Char) : ∀ b : UInt8,
    parseIPv4Loop 0 0 fields (Nat.toDigits 10 b.toNat ++ rest) =
      parseIPv4Loop b.toNat (Nat.toDigits 10 b.toNat).length fields rest := by
  have scan : ∀ (ds : List Char) (val digLen v : Nat), (∀ c ∈ ds, c.isDigit = true) →
      (ds.foldlM (fun p c => (octetDigit p.1 p.2 c).map (·, p.2 + 1)) (val, digLen)) =
        some (v, digLen + ds.length) →
      parseIPv4Loop val digLen fields (ds ++ rest) =
        parseIPv4Loop v (digLen + ds.length) fields rest := by
    intro ds
    induction ds with
    | nil =>
      intro val digLen v _ h
      simp only [List.foldlM_nil, Option.pure_def, Option.some.injEq, Prod.mk.injEq] at h
      rw [h.1]; rfl
    | cons c ds ih =>
      intro val digLen v hd h
      rw [List.foldlM_cons] at h
      obtain ⟨⟨w, k⟩, hw, h⟩ := Option.bind_eq_some_iff.mp h
      obtain ⟨u, hu, hp⟩ := Option.map_eq_some_iff.mp hw
      cases hp
      rw [List.cons_append, parseIPv4Loop, if_pos (hd c (by simp)), hu, Option.bind_some,
        ih w _ v (fun x hx => hd x (by simp [hx]))
          (by rw [h, List.length_cons]; congr 2; omega),
        List.length_cons]
      congr 1
      omega
  have all : ∀ n : Fin 256, (Nat.toDigits 10 n.val).all Char.isDigit = true ∧
      (Nat.toDigits 10 n.val).foldlM (fun p c => (octetDigit p.1 p.2 c).map (·, p.2 + 1)) (0, 0) =
        some (n.val, 0 + (Nat.toDigits 10 n.val).length) := by decide +kernel
  intro b
  obtain ⟨h1, h2⟩ := all ⟨b.toNat, UInt8.toNat_lt b⟩
  simpa using scan _ 0 0 b.toNat (List.all_eq_true.mp h1) h2

theorem toDigits_octet (b : UInt8) :
    (Nat.toDigits 10 b.toNat).length ≠ 0 ∧
      ∀ c ∈ Nat.toDigits 10 b.toNat, c.isDigit = true ∧ c ∉ ['.', ':', '%', '/'] := by
  have all : ∀ n : Fin 256, (Nat.toDigits 10 n.val).length ≠ 0 ∧
      (Nat.toDigits 10 n.val).all (fun c => c.isDigit && !(['.', ':', '%', '/'].contains c)) = true := by
    decide +kernel
  obtain ⟨hlen, hall⟩ := all ⟨b.toNat, UInt8.toNat_lt b⟩
  refine ⟨hlen, fun c hc => ?_⟩
  simpa using List.all_eq_true.mp hall c hc

theorem dotted_four (a b c d : UInt8) :
    dotted [a, b, c, d] = Nat.toDigits 10 a.toNat ++ '.' :: (Nat.toDigits 10 b.toNat ++
      '.' :: (Nat.toDigits 10 c.toNat ++ '.' :: (Nat.toDigits 10 d.toNat ++ []))) := by
  simp [dotted, List.intercalate, List.intersperse]

theorem parseIPv4_dotted {ip : IP} (h : ip.length = 4) : parseIPv4 (dotted ip) = some ip := by
  obtain ⟨a, b, c, d, rfl⟩ := List.length_eq_four.mp h
  have dot : ∀ (x : UInt8) (fields rest : List _), fields.length ≠ 3 →
      parseIPv4Loop x.toNat (Nat.toDigits 10 x.toNat).length fields ('.' :: rest) =
        parseIPv4Loop 0 0 (fields ++ [x]) rest := by
    intro x fields rest hf
    have hx := (toDigits_octet x).1
    rw [parseIPv4Loop, if_neg (by decide), if_pos rfl, if_neg (by simp [hx, hf]), UInt8.ofNat_toNat]
  rw [parseIPv4, dotted_four, parseIPv4Loop_digits, dot a _ _ (by simp), parseIPv4Loop_digits,
    dot b _ _ (by simp), parseIPv4Loop_digits, dot c _ _ (by simp), parseIPv4Loop_digits, parseIPv4Loop]
  have hd := (toDigits_octet d).1
  simp [hd]

theorem dotted_no_slash {ip : IP} (h : ip.length = 4) : '/' ∉ dotted ip := by
  obtain ⟨a, b, c, d, rfl⟩ := List.length_eq_four.mp h
  have hd : ∀ x : UInt8, '/' ∉ Nat.toDigits 10 x.toNat := fun x hx => by
    simpa using ((toDigits_octet x).2 _ hx).2
  simp [dotted_four, hd]

theorem parseIP_dotted {ip : IP} (h : ip.length = 4) :
    parseIP (dotted ip) = some (v4InV6Prefix ++ ip) := by
  obtain ⟨a, b, c, d, rfl⟩ := List.length_eq_four.mp h
  have hsep : (dotted [a, b, c, d]).find? (· ∈ ['.', ':', '%']) = some '.' := by
    rw [dotted_four, List.find?_append, List.find?_eq_none.mpr, Option.none_or]
    · rfl
    · intro x hx
      have := ((toDigits_octet a).2 x hx).2
      simp only [List.mem_cons, List.not_mem_nil, not_or, decide_eq_true_eq] at this ⊢
      tauto
  rw [parseIP, hsep, parseIPv4_dotted h]
  rfl

theorem to4_mapped {ip : IP} (h : ip.length = 4) : to4 (v4InV6Prefix ++ ip) = some ip := by
  have hp : v4InV6Prefix.length = 12 := rfl
  have hv : isIPv4 (v4InV6Prefix ++ ip) = true := by
    simp [isIPv4, hp, h]
  rw [to4, if_neg (by simp [hp, h]), if_pos hv]
  simp [← hp]

theorem parseCIDR_dotted {ip : IP} (h : ip.length = 4) : parseCIDR (dotted ip) = none := by
  have ht : (dotted ip).takeWhile (· ≠ '/') = dotted ip :=
    List.takeWhile_eq_self_iff.mpr fun c hc => by
      simpa using fun e : c = '/' => dotted_no_slash h (e ▸ hc)
  simp only [parseCIDR, ht, if_true]

theorem ntoui_uiton (a : UInt32) : ntoui (uiton a) = some a := by
  obtain ⟨i, hi, hv⟩ := ntoui_spec (length_uiton a)
  rw [hi, Option.some.injEq, ← UInt32.toNat_inj, hv, val_uiton]

theorem toList_uitoa (a : UInt32) : (uitoa a).toList = dotted (uiton a) := String.toList_ofList

theorem parseIP_uitoa (a : UInt32) :
    parseIP (uitoa a).toList = some (v4InV6Prefix ++ uiton a) := by
  rw [toList_uitoa, parseIP_dotted (length_uiton a)]

theorem uitoa_inj {a b : UInt32} (h : uitoa a = uitoa b) : a = b := by
  have he := parseIP_uitoa a
  rw [h, parseIP_uitoa, Option.some.injEq, List.append_cancel_left_eq] at he
  exact (uiton_inj.mp he).symm

/-- The text of an address reads back as the network of that one address. -/
theorem atoin_uitoa (a : UInt32) : atoin (uitoa a) = some ⟨a, uint32Max⟩ := by
  have hl := length_uiton a
  rw [atoin, atoinWith, toList_uitoa, parseCIDR_dotted hl]
  simp only [parseIP_dotted hl, Option.bind_some, to4_mapped hl, ntoui_uiton, Option.pure_def,
    Option.bind_eq_bind]

theorem mask_text {k : Nat} (hk : k ≤ 32) :
    (cidrMask (128 - k) 128).length = 16 ∧ (cidrMask (128 - k) 128).drop 12 = cidrMask (32 - k) 32 ∧
      simpleMaskLength (cidrMask (32 - k) 32) = some (32 - k) ∧
      dtoi (Nat.toDigits 10 (32 - k)) = some (32 - k) := by
  have masks : ∀ j : Fin 33, (cidrMask (128 - j.val) 128).length = 16 ∧
      (cidrMask (128 - j.val) 128).drop 12 = cidrMask (32 - j.val) 32 ∧
      simpleMaskLength (cidrMask (32 - j.val) 32) = some (32 - j.val) ∧
      dtoi (Nat.toDigits 10 (32 - j.val)) = some (32 - j.val) := by decide +kernel
  exact masks ⟨k, by omega⟩

theorem length_cidrMask_short (n : Nat) (h : n ≤ 32) : (cidrMask n 32).length = 4 := by
  rw [show (32 : Nat) = 8 * 4 from rfl, cidrMask_eq (Or.inl rfl) h, length_cidrMaskBytes]

theorem parseCIDR_network {ip : IP} {k : Nat} (hl : ip.length = 4) (hk : k ≤ 32) :
    parseCIDR (dotted ip ++ '/' :: Nat.toDigits 10 (32 - k)) =
      some ⟨List.zipWith (· &&& ·) ip (cidrMask (32 - k) 32), cidrMask (32 - k) 32⟩ := by
  have htake : (dotted ip ++ '/' :: Nat.toDigits 10 (32 - k)).takeWhile (· ≠ '/') = dotted ip := by
    rw [List.takeWhile_append_of_pos, List.takeWhile_cons_of_neg (by simp), List.append_nil]
    intro c hc
    simpa using fun e : c = '/' => dotted_no_slash hl (e ▸ hc)
  simp only [parseCIDR, htake]
  rw [if_neg (by simp), parseIP_dotted hl]
  simp [to4_mapped hl, (mask_text hk).2.2.2]

theorem mapped_div {ip : IP} {k : Nat} (hl : ip.length = 4) (hk : k ≤ 32) :
    val (v4InV6Prefix ++ ip) / 2 ^ k = val v4InV6Prefix * 2 ^ (32 - k) + val ip / 2 ^ k := by
  have hsplit : 256 ^ 4 = 2 ^ (32 - k) * 2 ^ k := by
    rw [← pow_add, Nat.sub_add_cancel hk]
    rfl
  rw [val_append, hl, hsplit, ← Nat.mul_assoc, Nat.add_comm,
    Nat.add_mul_div_right _ _ (Nat.two_pow_pos k), Nat.add_comm]

/-- Under a mask that keeps the prefix, two mapped addresses agree as their last four bytes do. -/
theorem covers_mapped {ip : IP} {k : Nat} (hl : ip.length = 4) (hk : k ≤ 32) (a : UInt32) :
    NetIPNet.Covers ⟨v4InV6Prefix ++ ip, cidrMask (128 - k) 128⟩ (v4InV6Prefix ++ uiton a) ↔
      a.toNat / 2 ^ k = val ip / 2 ^ k := by
  have h16 : (v4InV6Prefix ++ ip).length = 16 := by simp [v4InV6Prefix, hl]
  have h := zipWith_and_mask_iff (a := v4InV6Prefix ++ uiton a) (b := v4InV6Prefix ++ ip) (k := k)
    (by simp [hl]) (by rw [h16]; omega)
  rw [h16, ← cidrMask_eq (Or.inr rfl) (Nat.sub_le _ _), mapped_div hl hk,
    mapped_div (length_uiton a) hk, val_uiton, Nat.add_left_cancel_iff] at h
  rw [← h]
  simp [NetIPNet.Covers, hl]

/-- A network of mapped addresses is printed under the short mask and reads back as the same
addresses. -/
theorem atoin_string {ip : IP} {k : Nat} (hl : ip.length = 4) (hk : k ≤ 32) :
    ∃ s n, NetIPNet.string ⟨v4InV6Prefix ++ ip, cidrMask (128 - k) 128⟩ = some s ∧
      atoin s = some n ∧
      ∀ a, n.Covers a ↔ NetIPNet.Covers ⟨v4InV6Prefix ++ ip, cidrMask (128 - k) 128⟩
        (v4InV6Prefix ++ uiton a) := by
  obtain ⟨hm16, hdrop, hlen, _⟩ := mask_text hk
  have hml := length_cidrMask_short (32 - k) (Nat.sub_le _ _)
  have hmv : val (cidrMask (32 - k) 32) = (2 ^ (32 - k) - 1) * 2 ^ k := by
    rw [show (32 : Nat) = 8 * 4 from rfl, cidrMask_eq (Or.inl rfl) (Nat.sub_le _ _)]
    exact val_cidrMaskBytes (l := 4) (by omega)
  have hal : (List.zipWith (· &&& ·) ip (cidrMask (32 - k) 32)).length = 4 := by simp [hl, hml]
  obtain ⟨i, hi, hiv⟩ := ntoui_spec hal
  obtain ⟨m, hm, hmt⟩ := ntoui_spec hml
  refine ⟨String.ofList (dotted ip ++ '/' :: Nat.toDigits 10 (32 - k)), ⟨i, m⟩, ?_, ?_, fun a => ?_⟩
  · simp [NetIPNet.string, to4_mapped hl, hm16, hdrop, hml, hlen]
  · rw [atoin, atoinWith, String.toList_ofList, parseCIDR_network hl hk]
    simp [NetIPNet.toIPNet, hi, hm]
  · have hip := val_lt ip
    rw [hl] at hip
    have hand := @val_zipWith_and ip (cidrMask (32 - k) 32) (by rw [hl, hml])
    have hidem : (i &&& m).toNat = val ip &&& (2 ^ (32 - k) - 1) * 2 ^ k := by
      rw [UInt32.toNat_and, hiv, hmt, hand, hmv, Nat.and_assoc, Nat.and_self]
    rw [covers_mapped hl hk, IPNet.Covers, ← UInt32.toNat_inj, hidem, UInt32.toNat_and, hmt, hmv]
    exact and_mask_iff hk (UInt32.toNat_lt a) hip

/-- The last prefix bit of a mapped address is set, so an aligned network of mapped addresses keeps
the whole prefix. -/
theorem NetIPNet.Canonical.mapped {n : NetIPNet} {a : UInt32} (hc : n.Canonical)
    (hip : n.ip = v4InV6Prefix ++ uiton a) :
    ∃ k ≤ 32, n = ⟨v4InV6Prefix ++ uiton a, cidrMask (128 - k) 128⟩ := by
  obtain ⟨_, k, _, hm, hd⟩ := hc
  have hlen : n.ip.length = 16 := by rw [hip]; rfl
  rw [hlen] at hm
  have hk : k ≤ 32 := by
    by_contra hk
    have hdvd : 2 ^ 33 ∣ val n.ip := (Nat.pow_dvd_pow 2 (by omega)).trans hd
    have hlt := UInt32.toNat_lt a
    have hp : val v4InV6Prefix = 65535 := by decide
    rw [hip, val_append, length_uiton, val_uiton, hp] at hdvd
    omega
  refine ⟨k, hk, ?_⟩
  cases n
  simp_all

end Dni
