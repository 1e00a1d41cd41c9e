import Dni.AttackerMerge
import Dni.MergePlan
import Dni.Lib.SortSearch

namespace Dni.Cpp

open GoMap Sieve SortSearch

theorem minElement_spec {xs : List UInt8} (h : xs ≠ []) :
    ∃ m ∈ xs, minElement xs = some m ∧ ∀ b ∈ xs, m.toNat ≤ b.toNat := by
  obtain ⟨x, xs, rfl⟩ := List.exists_cons_of_ne_nil h
  obtain ⟨hm, hle⟩ := foldl_best (fun m y : UInt8 => if y < m then y else m)
    (fun a b => a.toNat ≤ b.toNat) Nat.le_trans
    (fun m y => by split <;> simp_all [UInt8.lt_iff_toNat_lt]; omega) xs x
  exact ⟨_, hm, rfl, hle⟩

theorem maxElement_spec {xs : List UInt8} (h : xs ≠ []) :
    ∃ m ∈ xs, maxElement xs = some m ∧ ∀ b ∈ xs, b.toNat ≤ m.toNat := by
  obtain ⟨x, xs, rfl⟩ := List.exists_cons_of_ne_nil h
  obtain ⟨hm, hle⟩ := foldl_best (fun m y : UInt8 => if m < y then y else m)
    (fun a b => b.toNat ≤ a.toNat) (fun h₁ h₂ => Nat.le_trans h₂ h₁)
    (fun m y => by split <;> simp_all [UInt8.lt_iff_toNat_lt]; omega) xs x
  exact ⟨_, hm, rfl, hle⟩

theorem network_32 (x : UInt32) : network x 32 = x := by
  rw [network, show netmask 32 = -1 by rfl, UInt32.and_neg_one]

theorem broadcast_32 (x : UInt32) : broadcast x 32 = x := by
  rw [broadcast, show ~~~netmask 32 = 0 by rfl, UInt32.or_zero]

theorem CIDR.covers_32 (ip a : UInt32) : (⟨ip, 32⟩ : CIDR).Covers a ↔ a = ip := by
  rw [Covers, network_32, network_32]

theorem CIDR.covers_24 (ip a : UInt32) :
    (⟨ip, 24⟩ : CIDR).Covers a ↔ a &&& 0xFFFFFF00 = ip &&& 0xFFFFFF00 := by
  rw [Covers, network, network, show netmask 24 = 0xFFFFFF00 by rfl]

theorem CIDR.covers_16 (ip a : UInt32) :
    (⟨ip, 16⟩ : CIDR).Covers a ↔ a &&& 0xFFFF0000 = ip &&& 0xFFFF0000 := by
  rw [Covers, network, network, show netmask 16 = 0xFFFF0000 by rfl]

theorem belongs24_iff (g ip : UInt32) : belongs24 g ip = true ↔ ip &&& 0xFFFFFF00 = g &&& 0xFFFFFF00 := by
  rw [belongs24, decide_eq_true_eq, ← UInt32.toNat_inj, UInt32.toNat_shiftRight, UInt32.toNat_xor,
    ← UInt32.toNat_inj, toNat_and_high, toNat_and_high]
  change (g.toNat ^^^ ip.toNat) >>> 8 = 0 ↔ _
  rw [Nat.shiftRight_xor_distrib, Nat.xor_eq_zero_iff, Nat.shiftRight_eq_div_pow,
    Nat.shiftRight_eq_div_pow]
  omega

theorem belongs16_iff (g ip : UInt32) : belongs16 g ip = true ↔ ip &&& 0xFFFF0000 = g &&& 0xFFFF0000 := by
  rw [belongs16, decide_eq_true_eq, ← UInt32.toNat_inj, UInt32.toNat_shiftRight, UInt32.toNat_xor,
    ← UInt32.toNat_inj, toNat_and_top, toNat_and_top]
  change (g.toNat ^^^ ip.toNat) >>> 16 = 0 ↔ _
  rw [Nat.shiftRight_xor_distrib, Nat.xor_eq_zero_iff, Nat.shiftRight_eq_div_pow,
    Nat.shiftRight_eq_div_pow]
  omega

theorem toNat_low (x : UInt32) : (x &&& 0xFF).toUInt8.toNat = x.toNat % 256 := by
  rw [UInt32.toNat_toUInt8, UInt32.toNat_and, show (0xFF : UInt32).toNat = 2 ^ 8 - 1 by rfl,
    Nat.and_two_pow_sub_one_eq_mod]
  simp

/-- The third octet does not survive the cut to a byte. -/
theorem toUInt8_third (x : UInt32) : (x &&& 0xFF00).toUInt8 = 0 := by
  rw [UInt32.toUInt8_and, show (0xFF00 : UInt32).toUInt8 = 0 by rfl, UInt8.and_zero]

theorem and_high_add_low (x : UInt32) : (x &&& 0xFFFFFF00) + (x &&& 0xFF).toUInt8.toUInt32 = x := by
  have hx := UInt32.toNat_lt x
  rw [← UInt32.toNat_inj, UInt32.toNat_add, toNat_and_high, UInt8.toNat_toUInt32, toNat_low]
  omega

theorem filter_belongs24 (es : List (UInt32 × Int)) (x : UInt32) :
    (es.filter fun e => belongs24 (x &&& 0xFFFFFF00) e.1).map Prod.fst =
      members 0xFFFFFF00 es (x &&& 0xFFFFFF00) := by
  refine congrArg _ (List.filter_congr fun e _ => ?_)
  rw [Bool.eq_iff_iff, belongs24_iff, and_high_idem, decide_eq_true_eq]

theorem filter_belongs16 (es : List (UInt32 × Int)) (x : UInt32) :
    (es.filter fun e => belongs16 (x &&& 0xFFFF0000) e.1).map Prod.fst =
      members 0xFFFF0000 es (x &&& 0xFFFF0000) := by
  refine congrArg _ (List.filter_congr fun e _ => ?_)
  rw [Bool.eq_iff_iff, belongs16_iff, and_top_idem, decide_eq_true_eq]

/-- Among addresses of one /24 the last octets have the order of the addresses. -/
theorem low_ends {ips : List UInt32} {g : UInt32} (hm : ∀ x ∈ ips, x &&& 0xFFFFFF00 = g)
    (hne : ips ≠ []) : ∃ x ∈ ips, ∃ y ∈ ips,
      minElement (ips.map fun z => (z &&& 0xFF).toUInt8) = some (x &&& 0xFF).toUInt8 ∧
      maxElement (ips.map fun z => (z &&& 0xFF).toUInt8) = some (y &&& 0xFF).toUInt8 ∧
      ∀ z ∈ ips, x.toNat ≤ z.toNat ∧ z.toNat ≤ y.toNat := by
  have hlow : ips.map (fun z => (z &&& 0xFF).toUInt8) ≠ [] := by simpa
  obtain ⟨mn, hmn, hmin, hle⟩ := minElement_spec hlow
  obtain ⟨mx, hmx, hmax, hge⟩ := maxElement_spec hlow
  obtain ⟨x, hx, rfl⟩ := List.mem_map.mp hmn
  obtain ⟨y, hy, rfl⟩ := List.mem_map.mp hmx
  refine ⟨x, hx, y, hy, hmin, hmax, fun z hz => ?_⟩
  have h₁ := hle _ (List.mem_map_of_mem hz)
  have h₂ := hge _ (List.mem_map_of_mem hz)
  have hhigh : ∀ w ∈ ips, w.toNat / 256 * 256 = g.toNat := fun w hw => by
    rw [← toNat_and_high, hm w hw]
  have hgx := hhigh x hx
  have hgy := hhigh y hy
  have hgz := hhigh z hz
  rw [toNat_low, toNat_low] at h₁ h₂
  omega

namespace SndAttackerIPMergeTask

variable {F : Type} [FloatArith F] [LE F] [DecidableLE F] (t : SndAttackerIPMergeTask F)

/-- Whether so many addresses stand for their whole network. -/
def segCover (n : Nat) : Bool := t.ipSegCoverThreshold ≤ FloatArith.ofInt n

theorem segCover_iff (n : Nat) : t.segCover n = true ↔ t.ipSegCoverThreshold ≤ FloatArith.ofInt (n : Int) :=
  decide_eq_true_iff

theorem fw3Cidrs_covers {es : List (UInt32 × Int)} {e : UInt32 × Int} (he : e ∈ es) (a : UInt32) :
    (∃ c ∈ t.fw3Cidrs es (e.1 &&& 0xFFFFFF00), c.Covers a) ↔
      Span24 t.segCover (members 0xFFFFFF00 es (e.1 &&& 0xFFFFFF00))
        (e.1 &&& 0xFFFFFF00) a := by
  obtain ⟨x, hx, y, hy, hmin, hmax, hends⟩ := low_ends members_key (members_ne_nil _ he)
  have hlist : (es.filter fun f => belongs24 (e.1 &&& 0xFFFFFF00) f.1).map
      (fun f => (f.1 &&& 0xFF).toUInt8) =
        (members 0xFFFFFF00 es (e.1 &&& 0xFFFFFF00)).map fun z => (z &&& 0xFF).toUInt8 := by
    rw [← filter_belongs24, List.map_map]
    rfl
  have hxg := members_key x hx
  have hyg := members_key y hy
  have hwide : (200 : Int) ≤ (y &&& 0xFF).toUInt8.toNat - (x &&& 0xFF).toUInt8.toNat ↔
      ∃ z ∈ members 0xFFFFFF00 es (e.1 &&& 0xFFFFFF00),
        ∃ w ∈ members 0xFFFFFF00 es (e.1 &&& 0xFFFFFF00), 200 ≤ w.toNat - z.toNat := by
    have hgx := toNat_and_high x
    have hgy := toNat_and_high y
    rw [hxg] at hgx
    rw [hyg] at hgy
    rw [toNat_low, toNat_low]
    constructor
    · exact fun h => ⟨x, hx, y, hy, by omega⟩
    · intro h
      rcases h with ⟨z, hz, w, hw, h⟩
      have hz' := hends z hz
      have hw' := hends w hw
      omega
  have hmem : ∀ z ∈ members 0xFFFFFF00 es (e.1 &&& 0xFFFFFF00),
      (e.1 &&& 0xFFFFFF00) + (z &&& 0xFF).toUInt8.toUInt32 = z := fun z hz => by
    rw [← members_key z hz, and_high_add_low]
  unfold fw3Cidrs Span24
  simp only [hlist, hmin, hmax, List.length_map, hwide, hmem x hx, hmem y hy, ← segCover_iff]
  split
  next hw => simp [hw, CIDR.covers_24, and_high_idem]
  next hw =>
    split
    next hc => simp [hc, CIDR.covers_24, and_high_idem]
    next hc =>
      rw [if_neg (not_or.mpr ⟨hw, hc⟩), hull_iff hx hy hends, iprangeToCidrs_covers le_rfl le_rfl]
      · rw [network_32, broadcast_32]
      · rw [network_32, broadcast_32, UInt32.le_iff_toNat_le]
        exact (hends x hx).2

/-- Every third octet has become zero, so a /16 that is narrowed is narrowed to its first /24. -/
theorem fw2Cidrs_covers {es : List (UInt32 × Int)} {e : UInt32 × Int} (he : e ∈ es) (a : UInt32) :
    (∃ c ∈ t.fw2Cidrs es (e.1 &&& 0xFFFF0000), c.Covers a) ↔
      if t.segCover (members 0xFFFF0000 es (e.1 &&& 0xFFFF0000)).length then
        a &&& 0xFFFF0000 = e.1 &&& 0xFFFF0000
      else a &&& 0xFFFFFF00 = e.1 &&& 0xFFFF0000 := by
  have hlist : (es.filter fun f => belongs16 (e.1 &&& 0xFFFF0000) f.1).length =
      (members 0xFFFF0000 es (e.1 &&& 0xFFFF0000)).length := by
    rw [← filter_belongs16, List.length_map]
  have hne : (es.filter fun f => belongs16 (e.1 &&& 0xFFFF0000) f.1).map
      (fun f => (f.1 &&& 0xFF00).toUInt8) ≠ [] := by
    have hm := members_ne_nil 0xFFFF0000 he
    rw [← filter_belongs16] at hm
    simpa using hm
  have hzero : ∀ b ∈ (es.filter fun f => belongs16 (e.1 &&& 0xFFFF0000) f.1).map
      (fun f => (f.1 &&& 0xFF00).toUInt8), b = 0 := fun b hb => by
    obtain ⟨f, _, rfl⟩ := List.mem_map.mp hb
    exact toUInt8_third f.1
  obtain ⟨mn, hmn, hmin, _⟩ := minElement_spec hne
  obtain ⟨mx, hmx, hmax, _⟩ := maxElement_spec hne
  unfold fw2Cidrs
  simp only [hmin, hmax, hzero mn hmn, hzero mx hmx, List.length_map, hlist, and_self, ← segCover_iff]
  split
  next hc => simp [CIDR.covers_16, and_top_idem]
  next hc =>
    have hg : e.1 &&& 0xFFFF0000 &&& 0xFFFFFF00 = e.1 &&& 0xFFFF0000 := by
      rw [UInt32.and_assoc]
      rfl
    have hnet : network (e.1 &&& 0xFFFF0000) 24 = e.1 &&& 0xFFFF0000 := hg
    have hal : 2 ^ (32 - 24) ∣ (e.1 &&& 0xFFFF0000).toNat :=
      ⟨e.1.toNat / 65536 * 256, by rw [toNat_and_top]; omega⟩
    have hcov := @CIDR.covers_iff ⟨e.1 &&& 0xFFFF0000, 24⟩ (by simp) hal a
    have hle := toNat_broadcast (show 24 ≤ 32 by omega) hal
    have hz : ∀ g : UInt32, g + UInt8.toUInt32 0 <<< 8 = g := UInt32.add_zero
    rw [hz, iprangeToCidrs_covers (by simp) (by simp) (by
      rw [hnet, UInt32.le_iff_toNat_le, hle]; omega), hnet, ← hcov, CIDR.covers_24, hg]

end SndAttackerIPMergeTask

end Dni.Cpp
