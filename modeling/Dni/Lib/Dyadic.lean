import Mathlib.Data.Nat.Bitwise
import Mathlib.Data.List.Perm.Subperm
import Mathlib.Data.List.Nodup
import Mathlib.Data.Set.Basic
import Mathlib.Tactic.Ring
import Mathlib.Tactic.Linarith

namespace Dyadic

/-- A run of `2 ^ k` consecutive numbers that starts at a multiple of its length. -/
structure Block where
  base : Nat
  k : Nat
  aligned : 2 ^ k ∣ base

def Block.next (b : Block) : Nat := b.base + 2 ^ b.k

instance : Membership Nat Block := ⟨fun b x => b.base ≤ x ∧ x < b.next⟩

theorem mem_def {b : Block} {x : Nat} : x ∈ b ↔ b.base ≤ x ∧ x < b.base + 2 ^ b.k := Iff.rfl

theorem Block.base_mem (b : Block) : b.base ∈ b :=
  ⟨le_rfl, Nat.lt_add_of_pos_right (Nat.two_pow_pos _)⟩

theorem Block.base_lt_next (b : Block) : b.base < b.next := b.base_mem.2

/-- Membership only looks at the bits above the block's length. -/
theorem mem_iff_div {b : Block} {x : Nat} : x ∈ b ↔ x / 2 ^ b.k = b.base / 2 ^ b.k := by
  obtain ⟨m, hm⟩ := b.aligned
  have hp := Nat.two_pow_pos b.k
  have hd : b.base / 2 ^ b.k = m := by rw [hm, Nat.mul_div_cancel_left _ hp]
  rw [mem_def, hd, Nat.div_eq_iff hp, hm]
  constructor
  · rintro ⟨hl, hr⟩
    exact ⟨by rw [Nat.mul_comm]; exact hl, by rw [Nat.mul_comm m]; omega⟩
  · rintro ⟨hl, hr⟩
    rw [Nat.mul_comm m] at hl hr
    exact ⟨hl, by omega⟩

/-- Two blocks that meet are nested, the shorter one inside the longer one. -/
theorem mem_of_meet {a b : Block} (hk : a.k ≤ b.k) {x y : Nat}
    (ha : x ∈ a) (hb : x ∈ b) (hy : y ∈ a) : y ∈ b := by
  have hpow : 2 ^ b.k = 2 ^ a.k * 2 ^ (b.k - a.k) := by rw [← pow_add]; congr 1; omega
  have hxy : y / 2 ^ a.k = x / 2 ^ a.k := (mem_iff_div.mp hy).trans (mem_iff_div.mp ha).symm
  rw [mem_iff_div] at hb ⊢
  rw [hpow, ← Nat.div_div_eq_div_mul, hxy, Nat.div_div_eq_div_mul, ← hpow]
  exact hb

theorem disjoint_or_nested (a b : Block) :
    (∀ x ∈ a, x ∉ b) ∨ (∀ x ∈ a, x ∈ b) ∨ (∀ x ∈ b, x ∈ a) := by
  by_cases hm : ∃ x, x ∈ a ∧ x ∈ b
  · obtain ⟨x, ha, hb⟩ := hm
    rcases Nat.le_total a.k b.k with hk | hk
    · exact Or.inr (Or.inl fun y hy => mem_of_meet hk ha hb hy)
    · exact Or.inr (Or.inr fun y hy => mem_of_meet hk hb ha hy)
  · exact Or.inl fun x ha hb => hm ⟨x, ha, hb⟩

theorem subset_iff {a b : Block} : (∀ x ∈ a, x ∈ b) ↔ b.base ≤ a.base ∧ a.next ≤ b.next := by
  constructor
  · intro h
    have hlt := a.base_lt_next
    have hl := h _ a.base_mem
    have hr : a.next - 1 ∈ b := h _ ⟨by unfold Block.next at *; omega, by omega⟩
    have hr2 : a.next - 1 < b.next := hr.2
    exact ⟨hl.1, by omega⟩
  · rintro ⟨hl, hr⟩ x ⟨hx, hx'⟩
    exact ⟨hl.trans hx, lt_of_lt_of_le hx' hr⟩

theorem ext_of_mem {a b : Block} (h : ∀ x, x ∈ a ↔ x ∈ b) : a = b := by
  obtain ⟨h1, h2⟩ := subset_iff.mp fun x hx => (h x).mp hx
  obtain ⟨h3, h4⟩ := subset_iff.mp fun x hx => (h x).mpr hx
  have hb : a.base = b.base := Nat.le_antisymm h3 h1
  have hn : a.next = b.next := Nat.le_antisymm h2 h4
  unfold Block.next at hn
  have hk : a.k = b.k := Nat.pow_right_injective (le_refl 2) (by simpa using (by omega : 2 ^ a.k = 2 ^ b.k))
  cases a; cases b
  simp_all

/-- `k` is the length of the longest block that starts at `s` and stays at or below `e`. -/
def Longest (s e k : Nat) : Prop :=
  2 ^ k ∣ s ∧ s + 2 ^ k ≤ e + 1 ∧ ¬ (2 ^ (k + 1) ∣ s ∧ s + 2 ^ (k + 1) ≤ e + 1)

/-- The list of blocks met when the range from `s` to `e` is cut greedily from its low end. -/
inductive Greedy (e : Nat) : Nat → List Block → Prop
  | last {s k} (h : Longest s e k) : s + 2 ^ k = e + 1 → Greedy e s [⟨s, k, h.1⟩]
  | step {s k bs} (h : Longest s e k) : s + 2 ^ k ≤ e → Greedy e (s + 2 ^ k) bs →
      Greedy e s (⟨s, k, h.1⟩ :: bs)

theorem Greedy.bounds {e s : Nat} {bs : List Block} (h : Greedy e s bs) :
    ∀ b ∈ bs, s ≤ b.base ∧ b.next ≤ e + 1 := by
  induction h with
  | @last s k hl he =>
    intro b hb
    rw [List.mem_singleton] at hb
    subst b
    exact ⟨le_rfl, he.le⟩
  | @step s k bs hl he _ ih =>
    intro b hb
    rcases List.mem_cons.mp hb with rfl | hb
    · exact ⟨le_rfl, hl.2.1⟩
    · have := ih b hb
      exact ⟨(Nat.le_add_right _ _).trans this.1, this.2⟩

theorem Greedy.cover {e s : Nat} {bs : List Block} (h : Greedy e s bs) (x : Nat) :
    (∃ b ∈ bs, x ∈ b) ↔ s ≤ x ∧ x ≤ e := by
  induction h with
  | @last s k hl he =>
    have hend : x < s + 2 ^ k ↔ x ≤ e := by omega
    simp [mem_def, hend]
  | @step s k bs hl he _ ih =>
    have hp := Nat.two_pow_pos k
    simp only [List.mem_cons, exists_eq_or_imp, ih]
    rw [mem_def]
    constructor
    · rintro (⟨h1, h2⟩ | ⟨h1, h2⟩)
      · exact ⟨h1, by simp only at h2; omega⟩
      · exact ⟨by omega, h2⟩
    · rintro ⟨h1, h2⟩
      by_cases hx : x < s + 2 ^ k
      · exact Or.inl ⟨h1, hx⟩
      · exact Or.inr ⟨by omega, h2⟩

theorem Greedy.ascending {e s : Nat} {bs : List Block} (h : Greedy e s bs) :
    bs.Pairwise fun a b => a.next ≤ b.base := by
  induction h with
  | last => simp
  | @step s k bs hl he hg ih =>
    exact List.pairwise_cons.mpr ⟨fun b hb => (hg.bounds b hb).1, ih⟩

theorem Greedy.ne_nil {e s : Nat} {bs : List Block} (h : Greedy e s bs) : bs ≠ [] := by
  cases h <;> simp

theorem Greedy.unique {e s : Nat} {bs cs : List Block} (hb : Greedy e s bs) (hc : Greedy e s cs) :
    bs = cs := by
  have hk : ∀ {s k l}, Longest s e k → Longest s e l → ¬ k < l := by
    rintro s k l ⟨_, _, hk⟩ ⟨hl, hle, _⟩ hlt
    have hp : 2 ^ (k + 1) ≤ 2 ^ l := Nat.pow_le_pow_right (by omega) hlt
    exact hk ⟨(Nat.pow_dvd_pow 2 hlt).trans hl, by omega⟩
  induction hb generalizing cs with
  | @last s k hl he =>
    cases hc with
    | @last _ l hl' he' =>
      have : k = l := by have := hk hl hl'; have := hk hl' hl; omega
      subst this; rfl
    | @step _ l cs hl' he' _ =>
      have : k = l := by have := hk hl hl'; have := hk hl' hl; omega
      subst this; omega
  | @step s k bs hl he _ ih =>
    cases hc with
    | @last _ l hl' he' =>
      have : k = l := by have := hk hl hl'; have := hk hl' hl; omega
      subst this; omega
    | @step _ l cs hl' he' hg' =>
      have : k = l := by have := hk hl hl'; have := hk hl' hl; omega
      subst this; rw [ih hg']

/-- A block of the greedy cut absorbs every block of the range that it meets: it is maximal. -/
theorem Greedy.absorb {e s : Nat} {bs : List Block} (h : Greedy e s bs) {b c : Block} (hb : b ∈ bs)
    (hs : s ≤ c.base) (he : c.next ≤ e + 1) {x : Nat} (hxb : x ∈ b) (hxc : x ∈ c) :
    ∀ y ∈ c, y ∈ b := by
  have first : ∀ {s k} (hl : Longest s e k), s ≤ c.base → ∀ {x}, x ∈ (⟨s, k, hl.1⟩ : Block) →
      x ∈ c → ∀ y ∈ c, y ∈ (⟨s, k, hl.1⟩ : Block) := by
    intro s k hl hs x hx hxc y hy
    rcases Nat.lt_or_ge k c.k with hk | hk
    · have hsc : s ∈ c := mem_of_meet (a := ⟨s, k, hl.1⟩) hk.le hx hxc (Block.base_mem _)
      have hbase : c.base = s := Nat.le_antisymm hsc.1 hs
      have hp : 2 ^ (k + 1) ≤ 2 ^ c.k := Nat.pow_le_pow_right (by omega) hk
      have hd : 2 ^ (k + 1) ∣ s := hbase ▸ (Nat.pow_dvd_pow 2 hk).trans c.aligned
      exact absurd ⟨hd, by unfold Block.next at he; omega⟩ hl.2.2
    · exact mem_of_meet hk hxc hx hy
  induction h with
  | @last s k hl hlast =>
    rw [List.mem_singleton] at hb
    subst b
    exact first hl hs hxb hxc
  | @step s k bs hl hle hg ih =>
    rcases List.mem_cons.mp hb with rfl | hb
    · exact first hl hs hxb hxc
    · have hbs := (hg.bounds b hb).1
      rcases Nat.lt_or_ge c.base (s + 2 ^ k) with hc | hc
      · have hin := first hl hs (x := c.base) ⟨hs, hc⟩ c.base_mem x hxc
        have h1 : x < s + 2 ^ k := hin.2
        have h2 : b.base ≤ x := hxb.1
        omega
      · exact ih hb hc

/-- A block whose members all lie in one range or beyond its gaps cannot straddle a gap. -/
theorem Block.bounds_of_mem {c : Block} {lo hi : Nat} (h : ∀ x ∈ c, lo ≤ x ∧ x ≤ hi) :
    lo ≤ c.base ∧ c.next ≤ hi + 1 := by
  have hlt := c.base_lt_next
  have hl := h _ c.base_mem
  have hr := h (c.next - 1) ⟨by omega, by omega⟩
  exact ⟨hl.1, by omega⟩

/-- If every member of `xs` picks a member of `ys` that it shares with no other, `xs` is no longer
than `ys`. -/
theorem length_le_of_pick {α β : Type*} {xs : List α} {ys : List β} (pick : α → β → Prop)
    (total : ∀ a ∈ xs, ∃ b ∈ ys, pick a b)
    (apart : xs.Pairwise fun a a' => ∀ b, pick a b → ¬ pick a' b) : xs.length ≤ ys.length := by
  induction xs generalizing ys with
  | nil => simp
  | cons a xs ih =>
    obtain ⟨hfirst, hrest⟩ := List.pairwise_cons.mp apart
    obtain ⟨b, hb, hab⟩ := total a (by simp)
    obtain ⟨pre, post, rfl⟩ := List.append_of_mem hb
    have hle : xs.length ≤ (pre ++ post).length := by
      refine ih (fun a' ha' => ?_) hrest
      obtain ⟨b', hb', hab'⟩ := total a' (by simp [ha'])
      have hne : b' ≠ b := fun he => hfirst a' ha' b hab (he ▸ hab')
      refine ⟨b', ?_, hab'⟩
      simp only [List.mem_append, List.mem_cons] at hb' ⊢
      tauto
    simp only [List.length_append, List.length_cons] at hle ⊢
    omega

/-- Masking away the low `k` of `w` bits rounds down to a multiple of `2 ^ k`. -/
theorem and_mask_eq {w k x : Nat} (hk : k ≤ w) (hx : x < 2 ^ w) :
    x &&& (2 ^ (w - k) - 1) * 2 ^ k = x / 2 ^ k * 2 ^ k := by
  apply Nat.eq_of_testBit_eq
  intro i
  rw [Nat.testBit_and, Nat.testBit_mul_two_pow, Nat.testBit_two_pow_sub_one, Nat.testBit_mul_two_pow,
    Nat.testBit_div_two_pow]
  by_cases hki : k ≤ i
  · by_cases hi : i < w
    · simp [hki, show i - k < w - k by omega]
    · have hxi : x.testBit i = false :=
        Nat.testBit_lt_two_pow (hx.trans_le (Nat.pow_le_pow_right (by omega) (by omega)))
      simp [hki, hxi]
  · simp [hki]

theorem and_mask_iff {w k x y : Nat} (hk : k ≤ w) (hx : x < 2 ^ w) (hy : y < 2 ^ w) :
    x &&& (2 ^ (w - k) - 1) * 2 ^ k = y &&& (2 ^ (w - k) - 1) * 2 ^ k ↔ x / 2 ^ k = y / 2 ^ k := by
  rw [and_mask_eq hk hx, and_mask_eq hk hy]
  exact ⟨Nat.eq_of_mul_eq_mul_right (Nat.two_pow_pos k), fun h => by rw [h]⟩

end Dyadic
