import Dni.Lib.Dyadic
import Dni.Lib.SortSearch
import Mathlib.Data.List.Chain

namespace Dyadic

/-- The lower and the upper half of a block. -/
structure Siblings (a b : Block) : Prop where
  k : a.k = b.k
  next : a.next = b.base
  whole : 2 ^ (a.k + 1) ∣ a.base

/-- Disjoint blocks that cannot be put together any further. -/
structure Coarsest (bs : List Block) : Prop where
  disjoint : bs.Pairwise fun a b => ∀ x ∈ a, x ∉ b
  apart : ∀ a ∈ bs, ∀ b ∈ bs, ¬ Siblings a b

/-- A block that is not a single number, as its two halves. -/
theorem Block.mem_halves {c : Block} {k : Nat} (hk : c.k = k + 1) :
    ∃ lo hi : Block, lo.k = k ∧ hi.k = k ∧ lo.base = c.base ∧ hi.base = c.base + 2 ^ k ∧
      ∀ x, x ∈ c ↔ x ∈ lo ∨ x ∈ hi := by
  have hd : 2 ^ k ∣ c.base := (pow_dvd_pow 2 (by omega)).trans c.aligned
  have hpow : 2 ^ (k + 1) = 2 * 2 ^ k := Nat.pow_succ'
  refine ⟨⟨c.base, k, hd⟩, ⟨c.base + 2 ^ k, k, Nat.dvd_add hd dvd_rfl⟩, rfl, rfl, rfl, rfl, ?_⟩
  intro x
  rw [mem_def, mem_def, mem_def, hk]
  dsimp only
  omega

/-- A block inside another that is no longer is the other. -/
theorem Block.eq_of_subset {a b : Block} (h : ∀ x ∈ a, x ∈ b) (hk : b.k ≤ a.k) : a = b := by
  obtain ⟨hbase, hnext⟩ := subset_iff.mp h
  have hle : 2 ^ b.k ≤ 2 ^ a.k := Nat.pow_le_pow_right (by omega) hk
  unfold Block.next at hnext
  have hpow : 2 ^ a.k = 2 ^ b.k := by omega
  have hkk : a.k = b.k := Nat.pow_right_injective (le_refl 2) hpow
  have hbb : a.base = b.base := by omega
  cases a
  cases b
  simp_all

namespace Coarsest

variable {bs ds : List Block}

theorem eq_of_meet (h : Coarsest bs) {a b : Block} (ha : a ∈ bs) (hb : b ∈ bs) {x : Nat} (hxa : x ∈ a)
    (hxb : x ∈ b) : a = b := by
  by_contra hne
  obtain hab | hba := SortSearch.pairwise_or h.disjoint ha hb (Ne.symm hne)
  · exact hab x hxa hxb
  · exact hba x hxb hxa

/-- Every block whose members are all in the family lies in one block of it. -/
theorem absorb (h : Coarsest bs) (c : Block) (hc : ∀ x ∈ c, ∃ b ∈ bs, x ∈ b) : ∃ b ∈ bs, ∀ x ∈ c, x ∈ b := by
  generalize hk : c.k = k
  induction k generalizing c with
  | zero =>
    obtain ⟨b, hb, hin⟩ := hc c.base c.base_mem
    refine ⟨b, hb, ?_⟩
    intro x hx
    rw [mem_def, hk] at hx
    have hxe : x = c.base := by omega
    rwa [hxe]
  | succ k ih =>
    obtain ⟨lo, hi, hlk, hhk, hlb, hhb, hmem⟩ := Block.mem_halves hk
    obtain ⟨b, hb, hlo⟩ := ih lo (fun x hx => hc x ((hmem x).mpr (Or.inl hx))) hlk
    obtain ⟨b', hb', hhi⟩ := ih hi (fun x hx => hc x ((hmem x).mpr (Or.inr hx))) hhk
    have hlc : lo.base ∈ c := (hmem _).mpr (Or.inl lo.base_mem)
    have hhc : hi.base ∈ c := (hmem _).mpr (Or.inr hi.base_mem)
    by_cases hlong : c.k ≤ b.k
    · exact ⟨b, hb, fun x hx => mem_of_meet hlong hlc (hlo _ lo.base_mem) hx⟩
    by_cases hlong' : c.k ≤ b'.k
    · exact ⟨b', hb', fun x hx => mem_of_meet hlong' hhc (hhi _ hi.base_mem) hx⟩
    -- both halves are in the family themselves
    have heq : lo = b := Block.eq_of_subset hlo (by omega)
    have heq' : hi = b' := Block.eq_of_subset hhi (by omega)
    subst heq heq'
    refine absurd ⟨by omega, ?_, ?_⟩ (h.apart lo hb hi hb')
    · rw [Block.next, hlk, hlb, hhb]
    · rw [hlk, hlb, ← hk]
      exact c.aligned

/-- A family with the same members has one of its blocks at each place of the coarsest one. -/
theorem inside (h : Coarsest bs) (hd : ∀ x, (∃ d ∈ ds, x ∈ d) ↔ ∃ b ∈ bs, x ∈ b) {b d : Block} (hb : b ∈ bs)
    (hdin : d ∈ ds) {x : Nat} (hxb : x ∈ b) (hxd : x ∈ d) : ∀ y ∈ d, y ∈ b := by
  obtain ⟨c, hc, hin⟩ := h.absorb d fun y hy => (hd y).mp ⟨d, hdin, hy⟩
  rwa [h.eq_of_meet hb hc hxb (hin x hxd)]

/-- No family with the same members has fewer blocks. -/
theorem length_le (h : Coarsest bs) (hd : ∀ x, (∃ d ∈ ds, x ∈ d) ↔ ∃ b ∈ bs, x ∈ b) : bs.length ≤ ds.length := by
  apply length_le_of_pick fun (b d : Block) => b.base ∈ d ∧ d ∈ ds
  · intro b hb
    obtain ⟨d, hdin, hx⟩ := (hd b.base).mpr ⟨b, hb, b.base_mem⟩
    exact ⟨d, hdin, hx, hdin⟩
  · apply h.disjoint.imp_of_mem
    intro a b ha hb hab d ⟨had, hdin⟩ ⟨hbd, _⟩
    exact hab b.base (h.inside hd ha hdin a.base_mem had _ hbd) b.base_mem

/-- A block of the coarsest family is in every family that is as short. -/
theorem mem_of_length_le (h : Coarsest bs) (hd : ∀ x, (∃ d ∈ ds, x ∈ d) ↔ ∃ b ∈ bs, x ∈ b)
    (hle : ds.length ≤ bs.length) {b : Block} (hb : b ∈ bs) : b ∈ ds := by
  by_contra hnot
  have hlast : b.next - 1 ∈ b := by
    have := b.base_lt_next
    exact ⟨by omega, by omega⟩
  -- the last member of `b` and the first of every block are each in a block of their own
  have hlen : ((b.next - 1) :: bs.map Block.base).length ≤ ds.length := by
    apply length_le_of_pick fun (x : Nat) (d : Block) => x ∈ d ∧ d ∈ ds
    · intro x hx
      have hin : ∃ c ∈ bs, x ∈ c := by
        obtain hx | hx := List.mem_cons.mp hx
        · exact ⟨b, hb, hx ▸ hlast⟩
        · obtain ⟨c, hc, hx⟩ := List.mem_map.mp hx
          exact ⟨c, hc, hx ▸ c.base_mem⟩
      obtain ⟨d, hdin, hxd⟩ := (hd x).mpr hin
      exact ⟨d, hdin, hxd, hdin⟩
    · rw [List.pairwise_cons, List.pairwise_map]
      apply And.intro
      · intro x hx d ⟨hd1, hdin⟩ ⟨hd2, _⟩
        obtain ⟨c, hc, hx⟩ := List.mem_map.mp hx
        have hin := h.inside hd hb hdin hlast hd1
        have hcb : c = b := h.eq_of_meet hc hb c.base_mem (hin _ (hx ▸ hd2))
        subst hcb
        have heq : d = c := by
          refine ext_of_mem fun y => ⟨hin y, ?_⟩
          intro hy
          have hlo : d.base ≤ c.base := (hx ▸ hd2).1
          have hhi : c.next - 1 < d.next := hd1.2
          have hy1 : c.base ≤ y := hy.1
          have hy2 : y < c.next := hy.2
          exact ⟨by omega, by omega⟩
        exact hnot (heq ▸ hdin)
      · apply h.disjoint.imp_of_mem
        intro a c ha hc hac d ⟨had, hdin⟩ ⟨hcd, _⟩
        exact hac c.base (h.inside hd ha hdin a.base_mem had _ hcd) c.base_mem
  rw [List.length_cons, List.length_map] at hlen
  omega

/-- The shortest family is unique. -/
theorem perm_of_length_le (h : Coarsest bs) (hd : ∀ x, (∃ d ∈ ds, x ∈ d) ↔ ∃ b ∈ bs, x ∈ b)
    (hle : ds.length ≤ bs.length) : bs.Perm ds := by
  have hnodup : bs.Nodup := by
    apply h.disjoint.imp
    intro a b hab heq
    exact hab a.base a.base_mem (heq ▸ a.base_mem)
  have hsub : bs.Subperm ds := List.subperm_of_subset hnodup fun b hb => h.mem_of_length_le hd hle hb
  exact hsub.perm_of_length_le hle

end Coarsest

/-- Disjoint blocks that are not the coarsest family have the members of a shorter one. -/
theorem exists_shorter {bs : List Block} (hdisjoint : bs.Pairwise fun a b => ∀ x ∈ a, x ∉ b) (h : ¬ Coarsest bs) :
    ∃ ds : List Block, ds.length < bs.length ∧ ∀ x, (∃ d ∈ ds, x ∈ d) ↔ ∃ b ∈ bs, x ∈ b := by
  have hpair : ∃ a ∈ bs, ∃ b ∈ bs, Siblings a b := by
    by_contra hnone
    exact h ⟨hdisjoint, fun a ha b hb hs => hnone ⟨a, ha, b, hb, hs⟩⟩
  obtain ⟨a, ha, b, hb, hs⟩ := hpair
  have hne : b ≠ a := by
    intro heq
    have hlt := a.base_lt_next
    have hnext := hs.next
    rw [heq] at hnext
    omega
  obtain ⟨pre, post, hbs⟩ := List.append_of_mem ha
  have hrest : b ∈ pre ++ post := by
    rw [hbs, List.perm_middle.mem_iff] at hb
    exact (List.mem_cons.mp hb).resolve_left hne
  obtain ⟨pre', post', hrest⟩ := List.append_of_mem hrest
  have hperm : bs.Perm (a :: b :: (pre' ++ post')) := by
    rw [hbs]
    apply List.perm_middle.trans
    rw [hrest]
    exact List.perm_middle.cons a
  have hmem : ∀ c, c ∈ bs ↔ c = a ∨ c = b ∨ c ∈ pre' ++ post' := by
    intro c
    rw [hperm.mem_iff, List.mem_cons, List.mem_cons]
  have hwhole : ∀ x, x ∈ (⟨a.base, a.k + 1, hs.whole⟩ : Block) ↔ x ∈ a ∨ x ∈ b := by
    intro x
    have hnext := hs.next
    have hpow : 2 ^ (a.k + 1) = 2 * 2 ^ a.k := Nat.pow_succ'
    rw [Block.next] at hnext
    rw [mem_def, mem_def, mem_def, ← hnext, ← hs.k]
    dsimp only
    omega
  refine ⟨⟨a.base, a.k + 1, hs.whole⟩ :: (pre' ++ post'), ?_, ?_⟩
  · rw [hperm.length_eq]
    exact Nat.lt_succ_self _
  · intro x
    simp only [hmem, List.mem_cons, or_and_right, exists_or, exists_eq_left, hwhole, or_assoc]

/-- In ascending order siblings are neighbours. -/
theorem coarsest_of_chain {bs : List Block} (hasc : bs.Pairwise fun a b => a.next ≤ b.base)
    (hchain : bs.IsChain fun a b => ¬ Siblings a b) : Coarsest bs := by
  have hdisjoint : bs.Pairwise fun a b => ∀ x ∈ a, x ∉ b := by
    apply hasc.imp
    intro a b hab x hxa hxb
    have := hxa.2
    have := hxb.1
    omega
  refine ⟨hdisjoint, ?_⟩
  induction bs with
  | nil =>
    intro a ha
    exact absurd ha (List.not_mem_nil)
  | cons c bs ih =>
    obtain ⟨hfirst, hrest⟩ := List.pairwise_cons.mp hasc
    have hind := ih hrest hchain.of_cons (List.pairwise_cons.mp hdisjoint).2
    intro a ha b hb hs
    have hab : a.base < b.base := hs.next ▸ a.base_lt_next
    obtain heq | hin := List.mem_cons.mp ha
    · subst heq
      obtain heq | hin := List.mem_cons.mp hb
      · subst heq
        omega
      · match bs, hin with
        | d :: bs, hin =>
          have hd := hfirst d List.mem_cons_self
          obtain heq | hin := List.mem_cons.mp hin
          · subst heq
            exact (List.isChain_cons_cons.mp hchain).1 hs
          · -- a block between the two would have no room
            have hdb := (List.pairwise_cons.mp hrest).1 b hin
            have hnext := hs.next
            have := d.base_lt_next
            omega
    · obtain heq | hin' := List.mem_cons.mp hb
      · subst heq
        have := hfirst a hin
        have := b.base_lt_next
        omega
      · exact hind a hin b hin' hs

end Dyadic
