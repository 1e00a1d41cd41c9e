import Dni.AddrText
import Dni.IPNetRuns

namespace Dni

open GoMap Bytes

/-- `net.ParseIP` and `net.ParseCIDR`, as far as their documentation goes: addresses come in 16 bytes,
networks of either family under a contiguous mask with their host bits cleared. -/
structure NetParser where
  parseIP : String → Option IP
  parseCIDR : String → Option NetIPNet
  length_ip : ∀ s ip, parseIP s = some ip → ip.length = 16
  masked : ∀ s n, parseCIDR s = some n → Family n.ip.length ∧
    ∃ ones ≤ 8 * n.ip.length, n.mask = cidrMask ones (8 * n.ip.length) ∧
      List.zipWith (· &&& ·) n.ip n.mask = n.ip

namespace NetParser

variable (p : NetParser)

def atoin (ipstr : String) : Option IPNet := atoinWith p.parseCIDR p.parseIP ipstr

/-- `ipnet, _ = Atoin(ip)`: with the error dropped, the zero value is left. -/
def net (ipstr : String) : IPNet := (p.atoin ipstr).getD ⟨0, 0⟩

/-- The texts of IPv4 networks and of addresses that have an IPv4 form. -/
def IPv4Text (ipstr : String) : Prop :=
  (∃ n, p.parseCIDR ipstr = some n ∧ n.ip.length = 4) ∨
    p.parseCIDR ipstr = none ∧ ∃ ip, p.parseIP ipstr = some ip ∧ isIPv4 ip = true

end NetParser

namespace IPNetSet

variable (p : NetParser)

def addText (ord : Order IPNet Unit) (i : IPNetSet) (ip : String) :
    Option (IPNetSet × List IPNet × Bool) := i.add ord (p.net ip)

def hasText (i : IPNetSet) (ip : String) : Bool := i.has (p.net ip)

def containsText (i : IPNetSet) (ip : String) : Bool := i.contains (p.net ip)

/-- The elements of the decoded array, each with the order in which its Add ranges. -/
def unmarshalJSON (inets : List (Order IPNet Unit × String)) (i : IPNetSet) : Option IPNetSet :=
  inets.foldlM (fun i e => (i.addText p e.1 e.2).map Prod.fst) i

end IPNetSet

theorem zero_canonical : (⟨0, 0⟩ : IPNet).Canonical := ⟨⟨32, by decide, by decide⟩, by decide⟩

theorem single_canonical (a : UInt32) : (⟨a, uint32Max⟩ : IPNet).Canonical := by
  refine ⟨⟨0, by omega, rfl⟩, ?_⟩
  change a &&& uint32Max = a
  rw [show uint32Max = -1 from rfl, UInt32.and_neg_one]

theorem ntoui_take {bs : List UInt8} (h : 4 ≤ bs.length) : ntoui bs = ntoui (bs.take 4) := by
  match bs, h with
  | b0 :: b1 :: b2 :: b3 :: rest, _ => rfl

/-- The first four bytes of a mask are a mask. -/
theorem take_cidrMaskBytes : ∀ (l n : Nat), 4 ≤ l → n ≤ 8 * l →
    ∃ k ≤ 32, (cidrMaskBytes l n).take 4 = cidrMaskBytes 4 (8 * 4 - k) := by
  have take_succ : ∀ (j l n : Nat), (cidrMaskBytes (j + l) n).take j = cidrMaskBytes j n := by
    intro j
    induction j with
    | zero => intro l n; rfl
    | succ j ih =>
      intro l n
      rw [show j + 1 + l = j + l + 1 by omega]
      unfold cidrMaskBytes
      split <;> simp [ih]
  intro l n hl hn
  have htake := take_succ 4 (l - 4) n
  rw [show 4 + (l - 4) = l by omega] at htake
  have hmany : ∀ j n, 8 * j ≤ n → cidrMaskBytes j n = cidrMaskBytes j (8 * j) := by
    intro j
    induction j with
    | zero => intro n _; rfl
    | succ j ih =>
      intro n hn
      unfold cidrMaskBytes
      rw [if_pos (by omega), if_pos (by omega), ih (n - 8) (by omega)]
      simp [ih (8 * (j + 1) - 8) (by omega)]
  rw [htake]
  by_cases h32 : n ≤ 32
  · exact ⟨32 - n, by omega, by rw [show 8 * 4 - (32 - n) = n by omega]⟩
  · exact ⟨0, by omega, hmany 4 n (by omega)⟩

/-- A network of either family, cut to four bytes, is canonical. -/
theorem toIPNet_canonical {n : NetIPNet} {m : IPNet} (hf : Family n.ip.length) {ones : Nat}
    (ho : ones ≤ 8 * n.ip.length) (hm : n.mask = cidrMask ones (8 * n.ip.length))
    (hz : List.zipWith (· &&& ·) n.ip n.mask = n.ip) (h : n.toIPNet = some m) : m.Canonical := by
  have h4 : 4 ≤ n.ip.length := by unfold Family at hf; omega
  rw [cidrMask_eq hf ho] at hm
  have hml : n.mask.length = n.ip.length := by rw [hm, length_cidrMaskBytes]
  obtain ⟨k, hk, hmask⟩ := take_cidrMaskBytes n.ip.length ones h4 ho
  rw [← hm] at hmask
  obtain ⟨i, hi, hiv⟩ := @ntoui_spec (n.ip.take 4) (by simp [h4])
  obtain ⟨j, hj, hjv⟩ := @ntoui_spec (n.mask.take 4) (by rw [hmask, length_cidrMaskBytes])
  have hmi : m = ⟨i, j⟩ := by
    rw [← ntoui_take h4] at hi
    rw [← ntoui_take (by omega)] at hj
    simpa [NetIPNet.toIPNet, hi, hj, eq_comm] using h
  subst hmi
  refine ⟨⟨k, hk, ?_⟩, ?_⟩
  · change j.toNat = _
    rw [hjv, hmask, val_cidrMaskBytes (by omega), Nat.sub_mul, ← pow_add,
      show 8 * 4 - k + k = 32 by omega, Nat.one_mul]
  · have hand : List.zipWith (· &&& ·) (n.ip.take 4) (n.mask.take 4) = n.ip.take 4 := by
      rw [← List.take_zipWith, hz]
    change i &&& j = i
    rw [← UInt32.toNat_inj, UInt32.toNat_and, hiv, hjv, ← val_zipWith_and (by simp [hml]), hand]

/-- Whatever the text, the net that Add works with is canonical. -/
theorem NetParser.net_canonical (p : NetParser) (s : String) : (p.net s).Canonical := by
  unfold NetParser.net
  cases h : p.atoin s with
  | none => exact zero_canonical
  | some m =>
    rw [Option.getD_some]
    unfold NetParser.atoin atoinWith at h
    split at h
    next n hn =>
      obtain ⟨hf, ones, ho, hm, hz⟩ := p.masked s n hn
      exact toIPNet_canonical hf ho hm hz h
    next =>
      obtain ⟨ip, _, h⟩ := Option.bind_eq_some_iff.mp h
      obtain ⟨i, _, h⟩ := Option.bind_eq_some_iff.mp h
      cases Option.some.inj h
      exact single_canonical i

/-- What the text of no IPv4 address or network should do to a set: nothing. -/
structure TextHarmless (p : NetParser) (ord : Order IPNet Unit) (i : IPNetSet) (s : String) : Prop where
  added : ∃ j del ok, i.addText p ord s = some (j, del, ok) ∧ (∀ n, n ∈ j.inets ↔ n ∈ i.inets) ∧
    ∀ a, j.Covers a ↔ i.Covers a
  has : i.hasText p s = false
  contains : i.containsText p s = false

/-- A set that calls with canonical nets lead to. -/
def Reachable (i : IPNetSet) : Prop :=
  ∃ ops : List SetOp, (∀ op ∈ ops, op.Canonical) ∧ runOps ops newIPNetSet = some i

theorem Reachable.represents {i : IPNetSet} (h : Reachable i) : ∃ ms, Represents i ms := by
  obtain ⟨ops, hops, hrun⟩ := h
  obtain ⟨j, ms, hj, hrep⟩ := newIPNetSet_represents.runOps_spec hops
  rw [hrun] at hj
  cases hj
  exact ⟨ms, hrep⟩

/-- Adding a text is a call with a canonical net. -/
theorem Reachable.addText {i : IPNetSet} (h : Reachable i) (p : NetParser) (ord : Order IPNet Unit)
    (s : String) : ∃ j, (i.addText p ord s).map Prod.fst = some j ∧ Reachable j := by
  obtain ⟨ms, hrep⟩ := h.represents
  obtain ⟨ops, hops, hrun⟩ := h
  have hop : (SetOp.add ord (p.net s)).Canonical := p.net_canonical s
  obtain ⟨j, ms', hj, _⟩ := hrep.apply_spec hop
  refine ⟨j, hj, ops ++ [.add ord (p.net s)], ?_, ?_⟩
  · intro op hmem
    rcases List.mem_append.mp hmem with hmem | hmem
    · exact hops op hmem
    · rw [List.mem_singleton] at hmem
      exact hmem ▸ hop
  · have hlast : runOps [.add ord (p.net s)] i = some j := by simpa [runOps] using hj
    rw [runOps] at hrun hlast ⊢
    rw [List.foldlM_append, hrun]
    exact hlast

theorem Reachable.unmarshalJSON {i : IPNetSet} (h : Reachable i) (p : NetParser)
    (l : List (Order IPNet Unit × String)) : ∃ j, i.unmarshalJSON p l = some j ∧ Reachable j := by
  induction l generalizing i with
  | nil => exact ⟨i, rfl, h⟩
  | cons e l ih =>
    obtain ⟨k, hk, hr⟩ := h.addText p e.1 e.2
    obtain ⟨j, hj, hr'⟩ := ih hr
    refine ⟨j, ?_, hr'⟩
    rw [IPNetSet.unmarshalJSON, List.foldlM_cons, hk]
    exact hj

/-- No text is harmless: either its net becomes a member, or some member already contains it. -/
theorem not_textHarmless {i : IPNetSet} (h : Reachable i) (p : NetParser) (ord : Order IPNet Unit)
    (s : String) : ¬ TextHarmless p ord i s := by
  intro hs
  obtain ⟨ms, hrep⟩ := h.represents
  have hcan := p.net_canonical s
  have hno := hs.contains
  rw [IPNetSet.containsText, ← Bool.not_eq_true, hrep.contains_spec] at hno
  obtain ⟨j, del, ok, hadd, hmem, _⟩ := hs.added
  have hspec := hrep.add_spec hcan ord
  rw [IPNetSet.addText] at hadd
  rw [hadd] at hspec
  cases hspec with
  | skip hm hw => exact hno ⟨_, hm, hw⟩
  | done hout hrep' hinets hnodup hdel =>
    have hin := (hmem (p.net s)).mp ((hinets (p.net s)).mpr (Or.inl rfl))
    exact hout _ hin fun _ ha => ha

/-- A text that no parser takes is added as the net of all addresses. -/
theorem addText_covers_all {i : IPNetSet} (h : Reachable i) (p : NetParser) (ord : Order IPNet Unit)
    {s : String} (hs : p.atoin s = none) :
    ∃ j del ok, i.addText p ord s = some (j, del, ok) ∧ ∀ a, j.Covers a := by
  obtain ⟨ms, hrep⟩ := h.represents
  have hspec := hrep.add_spec zero_canonical ord
  have hnet : p.net s = ⟨0, 0⟩ := by rw [NetParser.net, hs]; rfl
  have hall : ∀ a, (⟨0, 0⟩ : IPNet).Covers a := fun a => by simp [IPNet.Covers]
  rw [IPNetSet.addText, hnet]
  generalize i.add ord ⟨0, 0⟩ = out at hspec
  cases hspec with
  | @skip m hm hw => exact ⟨i, [], false, rfl, fun a => ⟨m, hm, hw a (hall a)⟩⟩
  | @done j l del hout hrep' hinets hnodup hdel =>
    exact ⟨j, del, true, rfl, fun a => ⟨⟨0, 0⟩, (hinets _).mpr (Or.inl rfl), hall a⟩⟩

/-- On no reachable set, directly or as an element of a JSON array, is a text that stands for no IPv4
address or network without effect and unknown to Has and Contains. -/
theorem addText_never_harmless (p : NetParser) (i : IPNetSet) (hi : Reachable i)
    (l : List (Order IPNet Unit × String)) (ord : Order IPNet Unit) (s : String)
    (_ : ¬ p.IPv4Text s) : ∃ j, i.unmarshalJSON p l = some j ∧ ¬ TextHarmless p ord j s := by
  obtain ⟨j, hj, hr⟩ := hi.unmarshalJSON p l
  exact ⟨j, hj, not_textHarmless hr p ord s⟩

theorem parseIPv4Loop_length {val digLen : Nat} {fields ip : IP} {cs : List Char}
    (h : parseIPv4Loop val digLen fields cs = some ip) : ip.length = 4 := by
  induction cs generalizing val digLen fields with
  | nil =>
    unfold parseIPv4Loop at h
    split at h
    next => cases h
    next hc =>
      cases Option.some.inj h
      simp only [not_or, not_not] at hc
      simp [hc.2]
  | cons c cs ih =>
    unfold parseIPv4Loop at h
    split at h
    next =>
      obtain ⟨v, _, hv⟩ := Option.bind_eq_some_iff.mp h
      exact ih hv
    next =>
      split at h
      next =>
        split at h
        next => cases h
        next => exact ih h
      next => cases h

theorem parseIP_length {cs : List Char} {ip : IP} (h : parseIP cs = some ip) : ip.length = 16 := by
  unfold parseIP at h
  split at h
  next =>
    obtain ⟨x, hx, he⟩ := Option.map_eq_some_iff.mp h
    subst he
    simp [v4InV6Prefix, parseIPv4Loop_length hx]
  next => cases h

theorem to4_length {ip x : IP} (h : to4 ip = some x) : x.length = 4 := by
  unfold to4 at h
  split at h
  next hl => exact Option.some.inj h ▸ hl
  next hl =>
    split at h
    next hv =>
      have h16 : ip.length = 16 := by
        simp only [isIPv4, Bool.or_eq_true, beq_iff_eq, Bool.and_eq_true] at hv
        omega
      cases Option.some.inj h
      simp [h16]
    next => cases h

theorem zipWith_and_idem (a m : IP) :
    List.zipWith (· &&& ·) (List.zipWith (· &&& ·) a m) m = List.zipWith (· &&& ·) a m := by
  induction a generalizing m with
  | nil => rfl
  | cons x a ih =>
    cases m with
    | nil => rfl
    | cons y m => simp [ih, UInt8.and_assoc]

/-- The parsers of the IPv4 texts; any other text is refused. -/
def textParser : NetParser where
  parseIP s := parseIP s.toList
  parseCIDR s := parseCIDR s.toList
  length_ip s ip h := parseIP_length h
  masked s n h := by
    unfold parseCIDR at h
    dsimp only at h
    split at h
    next => cases h
    next =>
      obtain ⟨ip, hip, h⟩ := Option.bind_eq_some_iff.mp h
      obtain ⟨k, _, h⟩ := Option.bind_eq_some_iff.mp h
      obtain ⟨x, _, hx⟩ := Option.bind_eq_some_iff.mp hip
      have hl := to4_length hx
      split at h
      next => cases h
      next hk =>
        have hml := length_cidrMask_short k (by omega)
        cases Option.some.inj h
        have hlen : (List.zipWith (· &&& ·) ip (cidrMask k 32)).length = 4 := by simp [hl, hml]
        refine ⟨Or.inl hlen, k, ?_, ?_, zipWith_and_idem _ _⟩
        · dsimp only
          omega
        · dsimp only
          rw [hlen]

theorem NetParser.not_ipv4Text {p : NetParser} {s : String} (hcidr : p.parseCIDR s = none)
    (hip : p.parseIP s = none) : ¬ p.IPv4Text s := by
  intro h
  obtain ⟨n, hn, _⟩ | ⟨_, ip, hsome, _⟩ := h
  · rw [hcidr] at hn
    cases hn
  · rw [hip] at hsome
    cases hsome

theorem emptyText_not_ipv4 : ¬ textParser.IPv4Text "" := NetParser.not_ipv4Text (by decide) (by decide)

theorem newIPNetSet_reachable : Reachable newIPNetSet := ⟨[], by simp, rfl⟩

def oneAddress : IPNetSet := ⟨(∅ : GoMap IPNet Unit).insert ⟨0x0A000001, uint32Max⟩ (),
  (∅ : GoMap IPNet Unit).insert ⟨0x0A000001, uint32Max⟩ (), []⟩

theorem oneAddress_reachable : Reachable oneAddress := by
  refine ⟨[.add Order.stored ⟨0x0A000001, uint32Max⟩], ?_, rfl⟩
  intro op hop
  rw [List.mem_singleton.mp hop]
  exact single_canonical _

theorem addText_never_harmless_hostname :
    ¬ textParser.IPv4Text "gateway.local/24" ∧
      ∃ j, oneAddress.unmarshalJSON textParser [(Order.stored, "10.0.0.2")] = some j ∧
        ¬ TextHarmless textParser Order.stored j "gateway.local/24" := by
  have htext : ¬ textParser.IPv4Text "gateway.local/24" :=
    NetParser.not_ipv4Text (by decide +kernel) (by decide +kernel)
  exact ⟨htext, addText_never_harmless textParser oneAddress oneAddress_reachable [(Order.stored, "10.0.0.2")]
    Order.stored "gateway.local/24" htext⟩

/-- The empty text, added to a set of two addresses, turns it into the net of all addresses. -/
theorem addText_wipes :
    ¬ textParser.IPv4Text "" ∧
    ∃ i, newIPNetSet.unmarshalJSON textParser [(Order.stored, "10.0.0.1"), (Order.stored, "10.0.0.2")] = some i ∧
      i.inets.keys = [⟨0x0a000002, uint32Max⟩, ⟨0x0a000001, uint32Max⟩] ∧
      ∃ j, (i.addText textParser Order.stored "").map Prod.fst = some j ∧ j.inets.keys = [⟨0, 0⟩] := by
  have hi : (newIPNetSet.unmarshalJSON textParser
      [(Order.stored, "10.0.0.1"), (Order.stored, "10.0.0.2")]).map (fun i => i.inets.keys) =
        some [⟨0x0a000002, uint32Max⟩, ⟨0x0a000001, uint32Max⟩] := by decide +kernel
  have hj : ((newIPNetSet.unmarshalJSON textParser [(Order.stored, "10.0.0.1"), (Order.stored, "10.0.0.2")]).bind
      fun i => (i.addText textParser Order.stored "").map fun e => e.1.inets.keys) = some [⟨0, 0⟩] := by
    decide +kernel
  obtain ⟨i, hrun, hkeys⟩ := Option.map_eq_some_iff.mp hi
  rw [hrun, Option.bind_some] at hj
  obtain ⟨e, he, hk⟩ := Option.map_eq_some_iff.mp hj
  exact ⟨emptyText_not_ipv4, i, hrun, hkeys, e.1, by rw [he]; rfl, hk⟩

end Dni
