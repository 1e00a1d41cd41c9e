import Dni.Lib.Dyadic

namespace Dyadic

/-- Two greedy cuts that follow each other are one, when no block of the whole range straddles them. -/
theorem Greedy.append {s m e : Nat} {bs cs : List Block} (hb : Greedy m s bs) (hc : Greedy e (m + 1) cs)
    (hstraddle : ∀ c : Block, s ≤ c.base → c.next ≤ e + 1 → m ∈ c → m + 1 ∉ c) : Greedy e s (bs ++ cs) := by
  have hme : m + 1 ≤ e := by
    obtain ⟨c, hc'⟩ := List.exists_mem_of_ne_nil _ hc.ne_nil
    have hin := (hc.cover c.base).mp ⟨c, hc', c.base_mem⟩
    omega
  induction hb with
  | @last s k hl hlast =>
    have hpow : 2 ^ (k + 1) = 2 * 2 ^ k := Nat.pow_succ'
    have hp := Nat.two_pow_pos k
    refine .step ⟨hl.1, by omega, ?_⟩ (by omega) (hlast ▸ hc)
    intro ⟨hd, hle⟩
    refine hstraddle ⟨s, k + 1, hd⟩ le_rfl hle ?_ ?_
    · rw [mem_def]
      dsimp only
      omega
    · rw [mem_def]
      dsimp only
      omega
  | @step s k bs hl hle hg ih =>
    have hpow : 2 ^ (k + 1) = 2 * 2 ^ k := Nat.pow_succ'
    have hp := Nat.two_pow_pos k
    have hrest := ih fun c hs => hstraddle c (by omega)
    refine .step ⟨hl.1, by omega, ?_⟩ (by omega) hrest
    intro ⟨hd, hlong⟩
    -- a longer block that does not end before `m + 1` would straddle the two cuts
    have hover : ¬ s + 2 ^ (k + 1) ≤ m + 1 := fun h => hl.2.2 ⟨hd, h⟩
    refine hstraddle ⟨s, k + 1, hd⟩ le_rfl hlong ?_ ?_
    · rw [mem_def]
      dsimp only
      omega
    · rw [mem_def]
      dsimp only
      omega

/-- No list of blocks with the same members is shorter than the greedy cut. -/
theorem Greedy.length_le {s e : Nat} {bs ds : List Block} (h : Greedy e s bs)
    (hd : ∀ x, (∃ d ∈ ds, x ∈ d) ↔ s ≤ x ∧ x ≤ e) : bs.length ≤ ds.length := by
  apply length_le_of_pick (fun (b d : Block) => b.base ∈ d ∧ d ∈ ds)
  · intro b hb
    obtain ⟨d, hd', hin⟩ := (hd b.base).mpr ((h.cover b.base).mp ⟨b, hb, b.base_mem⟩)
    exact ⟨d, hd', hin, hd'⟩
  · apply h.ascending.imp_of_mem
    intro a b ha hb hab d ⟨had, hdin⟩ ⟨hbd, _⟩
    obtain ⟨hlo, hhi⟩ := d.bounds_of_mem fun x hx => (hd x).mp ⟨d, hdin, hx⟩
    have hin : b.base ∈ a := h.absorb ha hlo hhi a.base_mem had _ hbd
    have := hin.2
    omega

/-- The halving of the block of length `2 ^ k` at `base` for the range from `lo` to `hi` inside it. -/
inductive Cut : Nat → Nat → Nat → Nat → List Block → Prop
  | whole {k base lo hi} (h : 2 ^ k ∣ base) (hlo : lo = base) (hhi : hi + 1 = base + 2 ^ k) :
    Cut k base lo hi [⟨base, k, h⟩]
  | lower {k base lo hi bs} (hhi : hi < base + 2 ^ k) (hcut : Cut k base lo hi bs) : Cut (k + 1) base lo hi bs
  | upper {k base lo hi bs} (hlo : base + 2 ^ k ≤ lo) (hcut : Cut k (base + 2 ^ k) lo hi bs) :
    Cut (k + 1) base lo hi bs
  | both {k base lo mid hi bs cs} (hmid : mid + 1 = base + 2 ^ k)
    (hpart : ¬ (lo = base ∧ hi + 1 = base + 2 ^ (k + 1))) (hlow : Cut k base lo mid bs)
    (hhigh : Cut k (base + 2 ^ k) (base + 2 ^ k) hi cs) : Cut (k + 1) base lo hi (bs ++ cs)

namespace Cut

variable {k base lo hi : Nat} {bs : List Block}

theorem bounds (h : Cut k base lo hi bs) : base ≤ lo ∧ lo ≤ hi ∧ hi < base + 2 ^ k := by
  induction h with
  | @whole k base lo hi h hlo hhi =>
    have := Nat.two_pow_pos k
    omega
  | @lower k base lo hi bs hhi hcut ih => omega
  | @upper k base lo hi bs hlo hcut ih =>
    have : 2 ^ (k + 1) = 2 * 2 ^ k := Nat.pow_succ'
    omega
  | @both k base lo mid hi bs cs hmid hpart hlow hhigh ihlow ihhigh =>
    have : 2 ^ (k + 1) = 2 * 2 ^ k := Nat.pow_succ'
    omega

/-- Only the block cut in two spans its middle. -/
theorem not_straddled {c : Block} {hi lo : Nat} (ha : 2 ^ (k + 1) ∣ base)
    (hpart : ¬ (lo = base ∧ hi + 1 = base + 2 ^ (k + 1))) (hlo : base ≤ lo) (hhi : hi < base + 2 ^ (k + 1))
    (hfirst : lo ≤ c.base) (hlast : c.next ≤ hi + 1) {m : Nat} (hm : m + 1 = base + 2 ^ k) (hmc : m ∈ c) :
    m + 1 ∉ c := by
  intro hnext
  have hpow : 2 ^ (k + 1) = 2 * 2 ^ k := Nat.pow_succ'
  have hp := Nat.two_pow_pos k
  by_cases hk : c.k ≤ k
  · -- a block of the length of a half lies in one half
    have hlow : m ∈ (⟨base, k, (pow_dvd_pow 2 (Nat.le_succ k)).trans ha⟩ : Block) := by
      rw [mem_def]
      dsimp only
      omega
    have hin : m + 1 < base + 2 ^ k := (mem_of_meet hk hmc hlow hnext).2
    omega
  · -- a longer one has the whole block
    have hwhole : ∀ x, base ≤ x → x < base + 2 ^ (k + 1) → x ∈ c := by
      intro x hx hx'
      have hmid : m ∈ (⟨base, k + 1, ha⟩ : Block) := by
        rw [mem_def]
        dsimp only
        omega
      exact mem_of_meet (a := ⟨base, k + 1, ha⟩) (Nat.not_le.mp hk) hmid hmc ⟨hx, hx'⟩
    have hb : c.base ≤ base := (hwhole base le_rfl (by omega)).1
    have hlt : m + 1 < c.next := hnext.2
    have htop : base + 2 ^ (k + 1) - 1 < c.next := (hwhole _ (by omega) (by omega)).2
    exact hpart (by omega)

theorem greedy (h : Cut k base lo hi bs) (ha : 2 ^ k ∣ base) : Greedy hi lo bs := by
  induction h with
  | @whole k base lo hi h hlo hhi =>
    subst hlo
    have hpow : 2 ^ (k + 1) = 2 * 2 ^ k := Nat.pow_succ'
    have hp := Nat.two_pow_pos k
    exact .last ⟨h, by omega, fun hlong => by omega⟩ hhi.symm
  | @lower k base lo hi bs hhi hcut ih => exact ih ((pow_dvd_pow 2 (Nat.le_succ k)).trans ha)
  | @upper k base lo hi bs hlo hcut ih =>
    exact ih (Nat.dvd_add ((pow_dvd_pow 2 (Nat.le_succ k)).trans ha) dvd_rfl)
  | @both k base lo mid hi bs cs hmid hpart hlow hhigh ihlow ihhigh =>
    have hhalf : 2 ^ k ∣ base := (pow_dvd_pow 2 (Nat.le_succ k)).trans ha
    have hb := hlow.bounds
    have hb' := hhigh.bounds
    have hpow : 2 ^ (k + 1) = 2 * 2 ^ k := Nat.pow_succ'
    have hrest := ihhigh (Nat.dvd_add hhalf dvd_rfl)
    rw [← hmid] at hrest
    apply (ihlow hhalf).append hrest
    intro c hfirst hlast hm
    exact not_straddled ha hpart hb.1 (by omega) hfirst hlast hmid hm

theorem length_whole (h : Cut k base lo hi bs) (hlo : lo = base) (hhi : hi + 1 = base + 2 ^ k) : bs.length = 1 := by
  have hpow : ∀ k : Nat, 2 ^ (k + 1) = 2 * 2 ^ k := fun k => Nat.pow_succ'
  cases h with
  | whole => rfl
  | @lower k _ _ _ _ hlt _ =>
    rw [hpow] at hhi
    have := Nat.two_pow_pos k
    omega
  | @upper k _ _ _ _ hge _ =>
    have := Nat.two_pow_pos k
    omega
  | both _ hpart _ _ => exact absurd ⟨hlo, hhi⟩ hpart

/-- A range from the block's start on that leaves the block's end out. -/
theorem length_prefix (h : Cut k base lo hi bs) (hlo : lo = base) (hhi : hi + 1 < base + 2 ^ k) : bs.length ≤ k := by
  induction h with
  | @whole k base lo hi h hlo' hhi' => omega
  | @lower k base lo hi bs hlt hcut ih =>
    by_cases hall : hi + 1 = base + 2 ^ k
    · have := hcut.length_whole hlo hall
      omega
    · exact (ih hlo (by omega)).trans (Nat.le_succ k)
  | @upper k base lo hi bs hge hcut ih =>
    have := Nat.two_pow_pos k
    omega
  | @both k base lo mid hi bs cs hmid hpart hlow hhigh ihlow ihhigh =>
    have hpow : 2 ^ (k + 1) = 2 * 2 ^ k := Nat.pow_succ'
    have hone := hlow.length_whole hlo hmid
    have hrest := ihhigh rfl (by omega)
    rw [List.length_append]
    omega

/-- A range up to the block's end that leaves the block's start out. -/
theorem length_suffix (h : Cut k base lo hi bs) (hlo : base < lo) (hhi : hi + 1 = base + 2 ^ k) : bs.length ≤ k := by
  induction h with
  | @whole k base lo hi h hlo' hhi' => omega
  | @lower k base lo hi bs hlt hcut ih =>
    have hpow : 2 ^ (k + 1) = 2 * 2 ^ k := Nat.pow_succ'
    have := Nat.two_pow_pos k
    omega
  | @upper k base lo hi bs hge hcut ih =>
    have hpow : 2 ^ (k + 1) = 2 * 2 ^ k := Nat.pow_succ'
    by_cases hall : lo = base + 2 ^ k
    · have := hcut.length_whole hall (by omega)
      omega
    · exact (ih (by omega) (by omega)).trans (Nat.le_succ k)
  | @both k base lo mid hi bs cs hmid hpart hlow hhigh ihlow ihhigh =>
    have hpow : 2 ^ (k + 1) = 2 * 2 ^ k := Nat.pow_succ'
    have hone := hhigh.length_whole rfl (by omega)
    have hrest := ihlow hlo hmid
    rw [List.length_append]
    omega

/-- Two blocks for each halving but the first two, at most. -/
theorem length_le (h : Cut k base lo hi bs) : bs.length ≤ max 1 (2 * (k - 1)) := by
  induction h with
  | @whole k base lo hi h hlo hhi => exact le_max_left _ _
  | @lower k base lo hi bs hlt hcut ih => omega
  | @upper k base lo hi bs hge hcut ih => omega
  | @both k base lo mid hi bs cs hmid hpart hlow hhigh ihlow ihhigh =>
    have hpow : 2 ^ (k + 1) = 2 * 2 ^ k := Nat.pow_succ'
    have hb := hlow.bounds
    have hb' := hhigh.bounds
    have hl : lo = base ∧ bs.length = 1 ∨ base < lo ∧ bs.length ≤ k := by
      obtain hlo | hlo := Nat.eq_or_lt_of_le hb.1
      · exact Or.inl ⟨hlo.symm, hlow.length_whole hlo.symm hmid⟩
      · exact Or.inr ⟨hlo, hlow.length_suffix hlo hmid⟩
    have hh : hi + 1 = base + 2 ^ k + 2 ^ k ∧ cs.length = 1 ∨ hi + 1 < base + 2 ^ k + 2 ^ k ∧ cs.length ≤ k := by
      obtain hhi | hhi := Nat.eq_or_lt_of_le (Nat.succ_le_of_lt hb'.2.2)
      · exact Or.inl ⟨hhi, hhigh.length_whole rfl hhi⟩
      · exact Or.inr ⟨hhi, hhigh.length_prefix rfl hhi⟩
    -- one address has no proper part
    have hk : k ≠ 0 := by
      intro hk
      subst hk
      omega
    rw [List.length_append]
    omega

end Cut

end Dyadic
