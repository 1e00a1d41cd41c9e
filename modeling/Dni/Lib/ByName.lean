import Mathlib.Logic.Relation
import Mathlib.Order.Basic

open Relation

namespace ByName

variable {α β γ : Type}

/-- No chain comes back to its start. -/
def Acyclic (r : α → α → Prop) : Prop := ∀ a, ¬ TransGen r a a

/-- From `a` to every element with the name of one that `a` is related to. -/
def Leads (r : α → α → Prop) (name : α → β) (a b : α) : Prop := ∃ c, r a c ∧ name c = name b

/-- From `a` by a chain to an element, and from that to another with its name. -/
def Jumps (r : α → α → Prop) (name : α → β) (a b : α) : Prop := ∃ c, TransGen r a c ∧ c ≠ b ∧ name c = name b

/-- Between the representatives of the two elements. -/
def Between (r : α → α → Prop) (rep : α → γ) (x y : γ) : Prop := ∃ a b, r a b ∧ rep a = x ∧ rep b = y

theorem Acyclic.mono {r s : α → α → Prop} (h : Acyclic s) (hrs : ∀ a b, r a b → TransGen s a b) : Acyclic r := by
  intro a ha
  exact h a (TransGen.closed hrs a a ha)

/-- A relation that never goes up has no cycle unless an element is related to itself. -/
theorem acyclic_iff_of_le [PartialOrder α] {r : α → α → Prop} (hle : ∀ a b, r a b → b ≤ a) :
    Acyclic r ↔ ∀ a, ¬ r a a := by
  apply Iff.intro
  · intro h a ha
    exact h a (.single ha)
  · intro h a ha
    have hchain : ∀ {a b}, ReflTransGen r a b → b ≤ a := by
      intro a b hab
      induction hab with
      | refl => exact le_rfl
      | tail _ hbc ih => exact (hle _ _ hbc).trans ih
    obtain ⟨b, hab, hba⟩ := TransGen.head'_iff.mp ha
    have heq : b = a := le_antisymm (hle _ _ hab) (hchain hba)
    subst heq
    exact h b hab

section Names

variable {r : α → α → Prop} {name : α → β}

theorem leads_of_rel {a b : α} (h : r a b) : Leads r name a b := ⟨b, h, rfl⟩

/-- The last step of a jump goes to the other element at once. -/
theorem leads_of_jumps {a b : α} (h : Jumps r name a b) : TransGen (Leads r name) a b := by
  obtain ⟨c, hac, -, hname⟩ := h
  obtain ⟨d, had, hdc⟩ := TransGen.tail'_iff.mp hac
  exact .tail' (ReflTransGen.mono (fun _ _ => leads_of_rel) _ _ had) ⟨c, hdc, hname⟩

theorem Jumps.head {a b c : α} (hab : ReflTransGen r a b) (h : Jumps r name b c) : Jumps r name a c := by
  obtain ⟨d, hbd, hne, hname⟩ := h
  exact ⟨d, hbd.trans_right hab, hne, hname⟩

/-- A chain is one of the relation itself, or its last jump is followed by one. -/
theorem chain_cases {a b : α} (h : TransGen (Leads r name) a b) :
    TransGen r a b ∨ ∃ c, TransGen (Jumps r name) a c ∧ ReflTransGen r c b := by
  induction h with
  | @single b h =>
    obtain ⟨b', hab, hname⟩ := h
    by_cases heq : b' = b
    · exact Or.inl (.single (heq ▸ hab))
    · exact Or.inr ⟨b, .single ⟨b', .single hab, heq, hname⟩, .refl⟩
  | @tail b d _ h ih =>
    obtain ⟨d', hbd, hname⟩ := h
    obtain hab | ⟨c, hac, hcb⟩ := ih
    · by_cases heq : d' = d
      · exact Or.inl (hab.tail (heq ▸ hbd))
      · exact Or.inr ⟨d, .single ⟨d', hab.tail hbd, heq, hname⟩, .refl⟩
    · by_cases heq : d' = d
      · exact Or.inr ⟨c, hac, hcb.tail (heq ▸ hbd)⟩
      · exact Or.inr ⟨d, hac.tail ⟨d', .tail' hcb hbd, heq, hname⟩, .refl⟩

/-- The two ways to a cycle: in the relation itself, or through elements that share a name. -/
theorem acyclic_leads_iff : Acyclic (Leads r name) ↔ Acyclic r ∧ Acyclic (Jumps r name) := by
  apply Iff.intro
  · intro h
    exact ⟨h.mono fun _ _ hab => .single (leads_of_rel hab), h.mono fun _ _ => leads_of_jumps⟩
  · intro ⟨hrel, hjumps⟩ a ha
    obtain haa | ⟨c, hac, hca⟩ := chain_cases ha
    · exact hrel a haa
    · -- the first jump can start where the last one ended
      obtain ⟨b, hab, hbc⟩ := TransGen.head'_iff.mp hac
      exact hjumps c (.head' (hab.head hca) hbc)

theorem acyclic_jumps_of_distinct (h : ∀ a c b, r a c → name c = name b → c = b) : Acyclic (Jumps r name) := by
  intro a ha
  obtain ⟨b, ⟨c, hac, hne, hname⟩, -⟩ := TransGen.head'_iff.mp ha
  obtain ⟨d, -, hdc⟩ := TransGen.tail'_iff.mp hac
  exact hne (h d c b hdc hname)

/-- Representatives that stand for names have a cycle when the names have one. -/
theorem acyclic_between_iff {rep : α → γ}
    (hmeet : ∀ a b a' b', r a b → r a' b' → rep b = rep a' → name b = name a')
    (hsame : ∀ a b c, r a c → name c = name b → rep c = rep b) :
    Acyclic (Between r rep) ↔ Acyclic (Leads r name) := by
  apply Iff.intro
  · intro h a ha
    apply h (rep a)
    have hlift : ∀ a b, Leads r name a b → Between r rep (rep a) (rep b) := by
      intro a b ⟨c, hac, hname⟩
      exact ⟨a, c, hac, rfl, hsame a b c hac hname⟩
    exact TransGen.lift rep hlift a a ha
  · intro h x hx
    have hchain : ∀ {x y}, TransGen (Between r rep) x y → ∃ a, (∃ b, r a b) ∧ rep a = x ∧
        ∀ a' b', r a' b' → rep a' = y → TransGen (Leads r name) a a' := by
      intro x y hxy
      induction hxy with
      | single hxy =>
        obtain ⟨a, b, hab, hx, hy⟩ := hxy
        refine ⟨a, ⟨b, hab⟩, hx, ?_⟩
        intro a' b' hab' hy'
        exact .single ⟨b, hab, hmeet a b a' b' hab hab' (hy.trans hy'.symm)⟩
      | tail _ hyz ih =>
        obtain ⟨a, hex, hx, hall⟩ := ih
        obtain ⟨b, c, hbc, hy, hz⟩ := hyz
        refine ⟨a, hex, hx, ?_⟩
        intro a' b' hab' hz'
        exact (hall b c hbc hy).tail ⟨c, hbc, hmeet b c a' b' hbc hab' (hz.trans hz'.symm)⟩
    obtain ⟨a, ⟨b, hab⟩, hax, hall⟩ := hchain hx
    exact h a (hall a b hab hax)

end Names

end ByName
