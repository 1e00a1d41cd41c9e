import Dni.Suspect
import Dni.MergePlan
import Dni.MergeIRanges
import Dni.IPNetFacts

namespace Dni

open GoMap Sieve SortSearch Bytes

theorem zipWith_and_uiton (a b : UInt32) :
    List.zipWith (· &&& ·) (uiton a) (uiton b) = uiton (a &&& b) := by
  have hshift : ∀ s : UInt32, a >>> s &&& b >>> s = (a &&& b) >>> s := fun s => by
    rw [← UInt32.toNat_inj]
    simp only [UInt32.toNat_and, UInt32.toNat_shiftRight, Nat.shiftRight_and_distrib]
  simp [uiton, ← hshift]

theorem uitoin_covers (ip mask a : UInt32) :
    (uitoin ip mask).Covers (uiton a) ↔ a &&& mask = ip &&& mask := by
  simp only [NetIPNet.Covers, uitoin, zipWith_and_uiton, uiton_inj, length_uiton, true_and]

theorem uitoin_covers_self {g mask : UInt32} (hg : g &&& mask = g) (a : UInt32) :
    (∃ n ∈ [uitoin g mask], n.Covers (uiton a)) ↔ a &&& mask = g := by
  simp [uitoin_covers, hg]

theorem ipRangeToCIDR_spec {start stop : UInt32} (h : start ≤ stop) :
    ∃ nets, ipRangeToCIDR start stop = some nets ∧
      ∀ a, (∃ n ∈ nets, n.Covers (uiton a)) ↔ start ≤ a ∧ a ≤ stop := by
  have hv : Range.Valid ⟨uiton start, uiton stop⟩ :=
    ⟨Or.inl rfl, rfl, by rw [val_uiton, val_uiton]; exact UInt32.le_iff_toNat_le.mp h⟩
  obtain ⟨nets, hn, hs⟩ := Range.toIPNets_spec hv
  refine ⟨nets, hn, fun a => ?_⟩
  rw [hs.covers, Range.Covers, val_uiton, val_uiton, val_uiton, UInt32.le_iff_toNat_le,
    UInt32.le_iff_toNat_le]
  exact and_iff_right rfl

theorem foldl_pair {α β γ : Type*} (f : α → γ → α) (g : β → γ → β) (xs : List γ) (a : α) (b : β) :
    xs.foldl (fun r x => (f r.1 x, g r.2 x)) (a, b) = (xs.foldl f a, xs.foldl g b) := by
  induction xs generalizing a b with
  | nil => rfl
  | cons x xs ih => exact ih (f a x) (g b x)

theorem getMinMax_spec {vals : List UInt32} (h : vals ≠ []) :
    ∃ x ∈ vals, ∃ y ∈ vals, getMinMax vals = (x, y) ∧
      ∀ z ∈ vals, x.toNat ≤ z.toNat ∧ z.toNat ≤ y.toNat := by
  obtain ⟨w, hw⟩ := List.exists_mem_of_ne_nil vals h
  obtain ⟨hmn, hle⟩ := foldl_best (fun r val : UInt32 => if val < r then val else r)
    (fun a b => a.toNat ≤ b.toNat) Nat.le_trans
    (fun m y => by split <;> simp_all [UInt32.lt_iff_toNat_lt]; omega) vals uint32Max
  obtain ⟨hmx, hge⟩ := foldl_best (fun r val : UInt32 => if r < val then val else r)
    (fun a b => b.toNat ≤ a.toNat) (fun h₁ h₂ => Nat.le_trans h₂ h₁)
    (fun m y => by split <;> simp_all [UInt32.lt_iff_toNat_lt]; omega) vals 0
  have hpair : getMinMax vals = _ := foldl_pair (fun r val : UInt32 => if val < r then val else r)
    (fun r val : UInt32 => if r < val then val else r) vals uint32Max 0
  have htop : uint32Max.toNat = 2 ^ 32 - 1 := rfl
  have hbot : (0 : UInt32).toNat = 0 := rfl
  refine ⟨_, ?_, _, ?_, hpair, fun z hz => ⟨hle z (by simp [hz]), hge z (by simp [hz])⟩⟩
  · rcases List.mem_cons.mp hmn with he | hm
    · have hwle := hle w (by simp [hw])
      have hwlt := UInt32.toNat_lt w
      rw [he] at hwle ⊢
      rwa [show uint32Max = w from UInt32.toNat_inj.mp (by omega)]
    · exact hm
  · rcases List.mem_cons.mp hmx with he | hm
    · have hwge := hge w (by simp [hw])
      rw [he] at hwge ⊢
      rwa [show 0 = w from UInt32.toNat_inj.mp (by omega)]
    · exact hm

/-- The number that a group's count has to exceed, where there are `n` groups. -/
def suspectThreshold (ipNumThreshold : Int) (n : Nat) : Int :=
  if ipNumThreshold ≤ n then ipNumThreshold.tdiv 2 else ipNumThreshold

def suspectHot (ipNumThreshold : Int) (n : Nat) (count : Int) : Bool :=
  suspectThreshold ipNumThreshold n < count.bmod (2 ^ 64)

theorem mem_suspectKeys (ord : Order UInt32 Int) (mask : UInt32) (es : List (UInt32 × Int))
    (thr : Int) (g : UInt32) : g ∈ suspectKeys ord (groupCounts 64 mask es) thr ↔
      (∃ e ∈ es, e.1 &&& mask = g) ∧ (maskTier mask (suspectHot thr)).Hot es g := by
  have hl := length_groupCounts mask (suspectHot thr) es 64
  have hc := lookup_groupCounts mask (suspectHot thr) es g 64
  have hhot : (maskTier mask (suspectHot thr)).Hot es g ↔
      (if thr ≤ (maskTier mask (suspectHot thr)).groups es then thr.tdiv 2 else thr) <
        (mass ((maskTier mask (suspectHot thr)).group es g)).bmod (2 ^ 64) := decide_eq_true_iff
  rw [hhot]
  simp only [suspectKeys, List.mem_map, List.mem_filter, decide_eq_true_eq, hl]
  constructor
  · intro h
    rcases h with ⟨⟨g', c⟩, ⟨hrun, hlt⟩, rfl⟩
    rw [Order.mem_run, hc] at hrun
    split at hrun
    next hex =>
      rw [← Option.some.inj hrun] at hlt
      exact ⟨hex, hlt⟩
    next => cases hrun
  · intro h
    rcases h with ⟨hex, hlt⟩
    rw [if_pos hex] at hc
    exact ⟨(g, _), ⟨ord.mem_run.mpr hc, hlt⟩, rfl⟩

/-- Whether so many addresses stand for their whole network. -/
def segCover (ipSegCoverThreshold : Int) (n : Nat) : Bool := ipSegCoverThreshold ≤ n

theorem fw3Nets_spec (cover : Int) {ips : List UInt32} {g : UInt32} (hne : ips ≠ [])
    (hm : ∀ x ∈ ips, x &&& 0xFFFFFF00 = g) :
    ∃ nets, fw3Nets cover ips g = some nets ∧
      ∀ a, (∃ n ∈ nets, n.Covers (uiton a)) ↔ Span24 (segCover cover) ips g a := by
  obtain ⟨x, hx, y, hy, hmm, hends⟩ := getMinMax_spec hne
  have hg : g &&& 0xFFFFFF00 = g := by
    rw [← hm x hx, and_high_idem]
  have hxy : x ≤ y := UInt32.le_iff_toNat_le.mpr (hends x hx).2
  have hwide : 200 ≤ y - x ↔ ∃ z ∈ ips, ∃ w ∈ ips, 200 ≤ w.toNat - z.toNat := by
    rw [UInt32.le_iff_toNat_le, UInt32.toNat_sub_of_le _ _ hxy]
    constructor
    · exact fun h => ⟨x, hx, y, hy, h⟩
    · intro h
      rcases h with ⟨z, hz, w, hw, h⟩
      have hz' := hends z hz
      have hw' := hends w hw
      change 200 ≤ _
      omega
  have hcov : segCover cover ips.length = true ↔ cover ≤ (ips.length : Int) := decide_eq_true_iff
  unfold fw3Nets Span24
  simp only [hmm, hwide, hcov]
  split
  next hw => exact ⟨_, rfl, fun a => by rw [if_pos (Or.inl hw)]; exact uitoin_covers_self hg a⟩
  next hw =>
    split
    next hc => exact ⟨_, rfl, fun a => by rw [if_pos (Or.inr hc)]; exact uitoin_covers_self hg a⟩
    next hc =>
      obtain ⟨nets, hn, hspec⟩ := ipRangeToCIDR_spec hxy
      refine ⟨nets, hn, fun a => ?_⟩
      rw [if_neg (not_or.mpr ⟨hw, hc⟩), hull_iff hx hy hends, hspec]

theorem third_add_top {x g : UInt32} (h : x &&& 0xFFFF0000 = g) : (x &&& 0xFF00) + g = x &&& 0xFFFFFF00 := by
  have hx := UInt32.toNat_lt x
  rw [← h, ← UInt32.toNat_inj, UInt32.toNat_add, toNat_and_high, toNat_and_top, toNat_third]
  omega

/-- The range of a narrowed /16 runs from the lowest to the highest /24 address of its members. -/
theorem fw2Nets_spec (cover : Int) {ips : List UInt32} {g : UInt32} (hne : ips ≠ [])
    (hm : ∀ x ∈ ips, x &&& 0xFFFF0000 = g) :
    ∃ nets, fw2Nets cover ips (ips.map (· &&& 0xFF00)) g = some nets ∧
      ∀ a, (∃ n ∈ nets, n.Covers (uiton a)) ↔
        if segCover cover ips.length then a &&& 0xFFFF0000 = g
        else Hull (ips.map (· &&& 0xFFFFFF00)) a := by
  have hne' : ips.map (· &&& 0xFF00) ≠ [] := by simpa
  obtain ⟨x', hx', y', hy', hmm, hends⟩ := getMinMax_spec hne'
  obtain ⟨x, hx, rfl⟩ := List.mem_map.mp hx'
  obtain ⟨y, hy, rfl⟩ := List.mem_map.mp hy'
  have hg : g &&& 0xFFFF0000 = g := by
    rw [← hm x hx, and_top_idem]
  have hbounds : ∀ z ∈ ips.map (· &&& 0xFFFFFF00),
      (x &&& 0xFFFFFF00).toNat ≤ z.toNat ∧ z.toNat ≤ (y &&& 0xFFFFFF00).toNat := by
    intro z hz
    obtain ⟨w, hw, rfl⟩ := List.mem_map.mp hz
    have h := hends _ (List.mem_map_of_mem hw)
    have htop : ∀ v ∈ ips, (v &&& 0xFFFF0000).toNat = g.toNat := fun v hv => by rw [hm v hv]
    have htx := htop x hx
    have hty := htop y hy
    have htw := htop w hw
    rw [toNat_third, toNat_third, toNat_third] at h
    rw [toNat_and_top] at htx hty htw
    rw [toNat_and_high, toNat_and_high, toNat_and_high]
    omega
  have hcov : segCover cover ips.length = true ↔ cover ≤ (ips.length : Int) := decide_eq_true_iff
  unfold fw2Nets
  simp only [hmm, List.length_map, hcov, and_self, third_add_top (hm x hx), third_add_top (hm y hy)]
  split
  next hc => exact ⟨_, rfl, fun a => uitoin_covers_self hg a⟩
  next hc =>
    have hle : x &&& 0xFFFFFF00 ≤ y &&& 0xFFFFFF00 :=
      UInt32.le_iff_toNat_le.mpr (hbounds _ (List.mem_map_of_mem hx)).2
    obtain ⟨nets, hn, hspec⟩ := ipRangeToCIDR_spec hle
    refine ⟨nets, hn, fun a => ?_⟩
    rw [hull_iff (List.mem_map_of_mem hx) (List.mem_map_of_mem hy) hbounds, hspec]

end Dni
