import Dni.SplitRange
import Dni.Suspect
import Dni.IPNetFacts
import Dni.MergeIRanges

namespace Dni.Cpp

open Dyadic Bytes Loops

/-- The first address of the block of a network. -/
structure CIDR.First (c : CIDR) (a : UInt32) : Prop where
  covers : c.Covers a
  least : ∀ b, c.Covers b → a ≤ b

/-- The last address of the block of a network. -/
structure CIDR.Last (c : CIDR) (a : UInt32) : Prop where
  covers : c.Covers a
  greatest : ∀ b, c.Covers b → b ≤ a

/-- The shortest list of networks that covers the range and nothing else. -/
structure ExactCover (cs : List CIDR) (lo hi : UInt32) : Prop where
  aligned : ∀ c ∈ cs, c.len ≤ 32 ∧ c.First c.ip
  ascending : cs.Pairwise fun c d => ∀ a b, c.Covers a → d.Covers b → a < b
  disjoint : cs.Pairwise fun c d => ∀ a, ¬ (c.Covers a ∧ d.Covers a)
  covers : ∀ a, (∃ c ∈ cs, c.Covers a) ↔ lo ≤ a ∧ a ≤ hi
  minimal : ∀ ds : List CIDR, (∀ d ∈ ds, d.len ≤ 32) → (∀ a, (∃ d ∈ ds, d.Covers a) ↔ lo ≤ a ∧ a ≤ hi) →
    cs.length ≤ ds.length
  short : cs.length ≤ 62

/-- The calls that a call leads to, with their depth. -/
inductive SplitCall.Reaches (root : SplitCall) : Nat → SplitCall → Prop
  | root : Reaches root 0 root
  | call {depth : Nat} {c d : SplitCall} (h : Reaches root depth c) (hd : d ∈ c.calls) : Reaches root (depth + 1) d

theorem SplitCall.InBlock.reaches {root : SplitCall} (hroot : root.InBlock) {depth : Nat} {c : SplitCall}
    (h : root.Reaches depth c) : c.InBlock ∧ c.len = root.len + depth := by
  induction h with
  | root => exact ⟨hroot, rfl⟩
  | call h hd ih =>
    obtain ⟨hin, hlen⟩ := ih
    obtain ⟨hin', hlen'⟩ := hin.call hd
    exact ⟨hin', by omega⟩

/-- The block of a network, whatever host bits its address has. -/
def CIDR.block (c : CIDR) : Dyadic.Block := ⟨c.ip.toNat / 2 ^ (32 - c.len) * 2 ^ (32 - c.len), 32 - c.len, dvd_mul_left _ _⟩

theorem CIDR.covers_iff_mem_block {c : CIDR} (h : c.len ≤ 32) (a : UInt32) : c.Covers a ↔ a.toNat ∈ c.block := by
  have hp := Nat.two_pow_pos (32 - c.len)
  rw [Covers, ← UInt32.toNat_inj, toNat_network _ h, toNat_network _ h, Nat.mul_left_inj hp.ne', mem_iff_div,
    block, Nat.mul_div_cancel _ hp]

theorem CIDR.ip_mem_block (c : CIDR) : c.ip.toNat ∈ c.block := by
  rw [mem_iff_div, block, Nat.mul_div_cancel _ (Nat.two_pow_pos _)]

theorem CIDR.mem_block_lt {c : CIDR} {x : Nat} (hx : x ∈ c.block) : x < 2 ^ 32 := by
  have hip : c.ip.toNat ∈ (⟨0, 32, dvd_zero _⟩ : Dyadic.Block) := by
    have hlt := UInt32.toNat_lt c.ip
    rw [mem_def]
    dsimp only
    omega
  have hin := mem_of_meet (b := ⟨0, 32, dvd_zero _⟩) (Nat.sub_le 32 c.len) c.ip_mem_block hip hx
  rw [mem_def] at hin
  dsimp only at hin
  omega

/-- The blocks of a list of networks, by the addresses that these cover. -/
theorem mem_blocks_iff {ds : List CIDR} {ips : UInt32 → Prop} (hlen : ∀ d ∈ ds, d.len ≤ 32)
    (hcov : ∀ a, (∃ d ∈ ds, d.Covers a) ↔ ips a) (x : Nat) :
    (∃ b ∈ ds.map CIDR.block, x ∈ b) ↔ ∃ a, ips a ∧ a.toNat = x := by
  simp only [List.mem_map, exists_exists_and_eq_and]
  apply Iff.intro
  · intro ⟨d, hd, hx⟩
    have hof : (UInt32.ofNat x).toNat = x := by rw [UInt32.toNat_ofNat', Nat.mod_eq_of_lt (d.mem_block_lt hx)]
    refine ⟨UInt32.ofNat x, (hcov _).mp ⟨d, hd, ?_⟩, hof⟩
    rwa [d.covers_iff_mem_block (hlen d hd), hof]
  · intro ⟨a, ha, hx⟩
    obtain ⟨d, hd, hda⟩ := (hcov a).mpr ha
    refine ⟨d, hd, ?_⟩
    rwa [d.covers_iff_mem_block (hlen d hd), hx] at hda

theorem toNat_broadcast_block {c : CIDR} (h : c.len ≤ 32) :
    (broadcast c.ip c.len).toNat = c.block.base + (2 ^ (32 - c.len) - 1) := by
  have hp := Nat.two_pow_pos (32 - c.len)
  have hr := Nat.mod_lt c.ip.toNat hp
  have hlow : c.ip.toNat % 2 ^ (32 - c.len) ||| (2 ^ (32 - c.len) - 1) = 2 ^ (32 - c.len) - 1 := by
    have hlt : c.ip.toNat % 2 ^ (32 - c.len) ||| (2 ^ (32 - c.len) - 1) < 2 ^ (32 - c.len) :=
      Nat.or_lt_two_pow hr (by omega)
    have hge : 2 ^ (32 - c.len) - 1 ≤ c.ip.toNat % 2 ^ (32 - c.len) ||| (2 ^ (32 - c.len) - 1) := Nat.right_le_or
    omega
  rw [broadcast, UInt32.toNat_or, toNat_hostmask h, ← Nat.div_add_mod c.ip.toNat (2 ^ (32 - c.len)),
    Nat.two_pow_add_eq_or_of_lt hr, Nat.or_assoc, hlow, ← Nat.two_pow_add_eq_or_of_lt (by omega), CIDR.block,
    Nat.mul_comm]

theorem CIDR.First.eq {c : CIDR} (h : c.len ≤ 32) {a : UInt32} (ha : c.First a) : a = network c.ip c.len := by
  have hbase : (network c.ip c.len).toNat = c.block.base := toNat_network c.ip h
  have hin : c.Covers (network c.ip c.len) := by
    rw [c.covers_iff_mem_block h, hbase]
    exact c.block.base_mem
  have hle := ha.least _ hin
  have hge := ((c.covers_iff_mem_block h a).mp ha.covers).1
  rw [UInt32.le_iff_toNat_le, hbase] at hle
  exact UInt32.toNat_inj.mp (by omega)

theorem CIDR.Last.eq {c : CIDR} (h : c.len ≤ 32) {a : UInt32} (ha : c.Last a) : a = broadcast c.ip c.len := by
  have hp := Nat.two_pow_pos (32 - c.len)
  have hend := toNat_broadcast_block h
  have hin : c.Covers (broadcast c.ip c.len) := by
    rw [c.covers_iff_mem_block h, mem_def, hend, block]
    dsimp only
    omega
  have hge := ha.greatest _ hin
  have hle := (c.covers_iff_mem_block h a).mp ha.covers
  rw [mem_def, show c.block.k = 32 - c.len from rfl] at hle
  rw [UInt32.le_iff_toNat_le, hend] at hge
  exact UInt32.toNat_inj.mp (by omega)

/-- A range that ends before its start is refused further down, by the length or the range. -/
theorem SplitCall.result_reversed {c : SplitCall} (h : c.hi < c.lo) (fuel : Nat) : c.result fuel = none := by
  induction fuel generalizing c with
  | zero => rfl
  | succ fuel ih =>
    rw [result_succ]
    split
    next => rfl
    next hb =>
      split
      next hwhole =>
        have hle : c.ip ≤ broadcast c.ip c.len := by
          rw [UInt32.le_iff_toNat_le, broadcast, UInt32.toNat_or]
          exact Nat.left_le_or
        rw [hwhole.1, hwhole.2, UInt32.lt_iff_toNat_lt] at h
        rw [UInt32.le_iff_toNat_le] at hle
        omega
      next hpart =>
        have hcalls : ∃ d rest, c.calls = d :: rest ∧ d.hi < d.lo := by
          rw [calls, if_neg hb, if_neg hpart]
          dsimp only
          split
          next => exact ⟨_, [], rfl, h⟩
          next hhi =>
            split
            next => exact ⟨_, [], rfl, h⟩
            next hlo =>
              simp only [UInt32.le_iff_toNat_le, UInt32.lt_iff_toNat_lt] at hhi hlo h
              omega
        obtain ⟨d, rest, hd, hrev⟩ := hcalls
        rw [hd, List.mapM_cons, ih hrev]
        rfl

/-- The networks of a halving are the shortest cover of the range. -/
theorem exactCover_of_cut {cs : List CIDR} {bs : List Dyadic.Block} {lo hi : UInt32}
    (hcut : Cut 32 0 lo.toNat hi.toNat bs) (hbs : List.Forall₂ CIDR.IsBlock cs bs) : ExactCover cs lo hi := by
  have hgreedy := hcut.greedy (dvd_zero _)
  have hlength := hbs.length_eq
  have hascending : cs.Pairwise fun c d => ∀ a b, c.Covers a → d.Covers b → a < b := by
    apply forall₂_pairwise hbs hgreedy.ascending
    intro c d b b' hb hb' hlt x y hx hy
    have hx' := ((hb.covers_iff x).mp hx).2
    have hy' := ((hb'.covers_iff y).mp hy).1
    rw [UInt32.lt_iff_toNat_lt]
    omega
  refine ⟨?_, hascending, ?_, ?_, ?_, ?_⟩
  · intro c hc
    obtain ⟨b, -, hb⟩ := forall₂_exists_right hbs hc
    have hfirst : c.Covers c.ip := by
      rw [hb.covers_iff, ← hb.base]
      exact b.base_mem
    refine ⟨hb.len, hfirst, ?_⟩
    intro a ha
    rw [UInt32.le_iff_toNat_le, ← hb.base]
    exact ((hb.covers_iff a).mp ha).1
  · apply hascending.imp
    intro c d hcd a ⟨hc, hd⟩
    exact absurd (hcd a a hc hd) (UInt32.lt_irrefl a)
  · intro a
    rw [forall₂_covers hbs, hgreedy.cover, UInt32.le_iff_toNat_le, UInt32.le_iff_toNat_le]
  · intro ds hlen hcov
    have hblocks : bs.length ≤ (ds.map CIDR.block).length := by
      apply hgreedy.length_le
      intro x
      rw [mem_blocks_iff hlen hcov]
      apply Iff.intro
      · intro ⟨a, ⟨hle, hge⟩, hx⟩
        rw [UInt32.le_iff_toNat_le] at hle hge
        exact ⟨hx ▸ hle, hx ▸ hge⟩
      · intro ⟨hle, hge⟩
        have hlt : x < 2 ^ 32 := Nat.lt_of_le_of_lt hge (UInt32.toNat_lt hi)
        have hof : (UInt32.ofNat x).toNat = x := by rw [UInt32.toNat_ofNat', Nat.mod_eq_of_lt hlt]
        refine ⟨UInt32.ofNat x, ⟨?_, ?_⟩, hof⟩
        · rwa [UInt32.le_iff_toNat_le, hof]
        · rwa [UInt32.le_iff_toNat_le, hof]
    rwa [List.length_map, ← hlength] at hblocks
  · have := hcut.length_le
    omega

/-- The networks for a range are its shortest cover, found without an error within 32 levels; for a range that
ends before its start there are none. -/
theorem iprangeToCidrs_exact (fr upTo : CIDR) (hf : fr.len ≤ 32) (ht : upTo.len ≤ 32) {lo hi : UInt32}
    (hlo : fr.First lo) (hhi : upTo.Last hi) :
    (lo ≤ hi → ExactCover (iprangeToCidrs fr upTo) lo hi ∧
      ∀ depth c, SplitCall.Reaches ⟨0, 0, lo, hi⟩ depth c → depth ≤ 32 ∧ ¬ c.OutOfRange) ∧
    (hi < lo → iprangeToCidrs fr upTo = []) := by
  have hlo' := hlo.eq hf
  have hhi' := hhi.eq ht
  subst hlo' hhi'
  refine ⟨?_, ?_⟩
  · intro hle
    obtain ⟨bs, hcut, hbs⟩ := iprangeToCidrs_cut hf ht hle
    refine ⟨exactCover_of_cut hcut hbs, ?_⟩
    intro depth c hreach
    obtain ⟨hin, hlen⟩ := (whole_inBlock hle).reaches hreach
    have hlen' := hin.len
    have hallowed := hin.allowed
    dsimp only at hlen
    exact ⟨by omega, fun hout => hallowed (Or.inr hout)⟩
  · intro hrev
    have hnone : SplitCall.result 34 ⟨0, 0, network fr.ip fr.len, broadcast upTo.ip upTo.len⟩ = none :=
      SplitCall.result_reversed hrev 34
    rw [iprangeToCidrs, if_neg (by omega)]
    exact congrArg (Option.getD · []) hnone

theorem network_host (a : UInt32) : network a 32 = a := by
  rw [← UInt32.toNat_inj, toNat_network a le_rfl]
  simp

theorem CIDR.host_covers (ip a : UInt32) : CIDR.Covers ⟨ip, 32⟩ a ↔ a = ip := by
  rw [Covers, network_host, network_host]

theorem CIDR.host_first (ip : UInt32) : CIDR.First ⟨ip, 32⟩ ip :=
  ⟨(host_covers ip ip).mpr rfl, fun b hb => UInt32.le_of_eq ((host_covers ip b).mp hb).symm⟩

theorem CIDR.host_last (ip : UInt32) : CIDR.Last ⟨ip, 32⟩ ip :=
  ⟨(host_covers ip ip).mpr rfl, fun b hb => UInt32.le_of_eq ((host_covers ip b).mp hb)⟩

/-- Six addresses, of which two blocks of two can be made. -/
theorem iprangeToCidrs_exact_six : ExactCover (iprangeToCidrs ⟨0x0A000001, 32⟩ ⟨0x0A000006, 32⟩) 0x0A000001 0x0A000006 ∧
    iprangeToCidrs ⟨0x0A000001, 32⟩ ⟨0x0A000006, 32⟩ =
      [⟨0x0A000001, 32⟩, ⟨0x0A000002, 31⟩, ⟨0x0A000004, 31⟩, ⟨0x0A000006, 32⟩] :=
  ⟨((iprangeToCidrs_exact ⟨0x0A000001, 32⟩ ⟨0x0A000006, 32⟩ le_rfl le_rfl (CIDR.host_first _)
    (CIDR.host_last _)).1 (by decide)).1, by decide +kernel⟩

/-- The network as the Go code writes it. -/
def CIDR.netIPNet (c : CIDR) : NetIPNet := ⟨uiton c.ip, cidrMask c.len 32⟩

theorem CIDR.IsBlock.netIPNet_eq {c : CIDR} {b : Dyadic.Block} {n : NetIPNet} (hc : c.IsBlock b)
    (hn : Dni.IsBlock 4 n b) : n = c.netIPNet := by
  obtain ⟨hlen, hval, hk, hmask⟩ := hn
  have hmaskLen : 8 * 4 - b.k = c.len := by
    have := hc.len
    have := hc.k
    omega
  have hip : n.ip = uiton c.ip := by
    apply val_inj
    · rw [hlen, length_uiton]
    · rw [hval, hc.base, val_uiton]
  rw [hmaskLen] at hmask
  cases n
  exact congrArg₂ NetIPNet.mk hip hmask

theorem netIPNets_eq {nets : List NetIPNet} {cs : List CIDR} {bs : List Dyadic.Block}
    (hn : List.Forall₂ (Dni.IsBlock 4) nets bs) (hc : List.Forall₂ CIDR.IsBlock cs bs) :
    nets = cs.map CIDR.netIPNet := by
  induction hn generalizing cs with
  | nil =>
    cases hc
    rfl
  | cons hb hrest ih =>
    cases hc with
    | cons hb' hrest' => rw [List.map_cons, hb'.netIPNet_eq hb, ih hrest']

/-- The Go code and the C++ code split a range into the same networks, in the same order. -/
theorem splitRange_agree {lo hi : UInt32} (hle : lo ≤ hi) :
    ipRangeToCIDR lo hi = some ((iprangeToCidrs ⟨lo, 32⟩ ⟨hi, 32⟩).map CIDR.netIPNet) := by
  have hlo := network_host lo
  have hhi : broadcast hi 32 = hi := by
    rw [← UInt32.toNat_inj, toNat_broadcast le_rfl (by simp)]
    simp
  have hle' : network (CIDR.mk lo 32).ip 32 ≤ broadcast (CIDR.mk hi 32).ip 32 := by
    rw [hlo, hhi]
    exact hle
  obtain ⟨bs, hcut, hbs⟩ := iprangeToCidrs_cut le_rfl le_rfl hle'
  rw [hlo, hhi] at hcut
  have hvalid : Range.Valid ⟨uiton lo, uiton hi⟩ := by
    refine ⟨Or.inl (length_uiton lo), ?_, ?_⟩
    · rw [length_uiton, length_uiton]
    · rw [val_uiton, val_uiton]
      exact UInt32.le_iff_toNat_le.mp hle
  obtain ⟨nets, bs', hnets, hgreedy, hbs'⟩ := Range.toIPNets_greedy hvalid
  rw [val_uiton, val_uiton] at hgreedy
  have hsame := hgreedy.unique (hcut.greedy (dvd_zero _))
  subst hsame
  rw [length_uiton] at hbs'
  rw [ipRangeToCIDR, hnets, netIPNets_eq hbs' hbs]

theorem splitRange_agree_six : ipRangeToCIDR 0x0A000001 0x0A000006 =
    some [⟨[10, 0, 0, 1], [255, 255, 255, 255]⟩, ⟨[10, 0, 0, 2], [255, 255, 255, 254]⟩,
      ⟨[10, 0, 0, 4], [255, 255, 255, 254]⟩, ⟨[10, 0, 0, 6], [255, 255, 255, 255]⟩] :=
  (splitRange_agree (by decide : (0x0A000001 : UInt32) ≤ 0x0A000006)).trans (by decide +kernel)

end Dni.Cpp
