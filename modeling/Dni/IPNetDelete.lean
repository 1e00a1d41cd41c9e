import Dni.IPNetText

namespace Dni

open GoMap

/-- What deleting the nets from the set should do. -/
structure Deletes (i : IPNetSet) (inets : List IPNet) (i' : IPNetSet) : Prop where
  members : ∀ m, m ∈ i'.inets ↔ m ∈ i.inets ∧ m ∉ inets
  contains : ∀ n, i'.contains n = true ↔ ∃ m ∈ i'.inets, n.Within m

/-- A member that stands behind a net that is no member, or that was named before, is named before it too. -/
def MembersFirst (members : GoMap IPNet Unit) (inets : List IPNet) : Prop :=
  ∀ pre n post, inets = pre ++ n :: post → n ∉ members ∨ n ∈ pre → ∀ m ∈ post, m ∈ members → m ∈ pre

theorem mem_of_reached {members : GoMap IPNet Unit} {inets : List IPNet} {m : IPNet} (h : m ∈ reached members inets) :
    m ∈ inets := by
  induction inets generalizing members with
  | nil => cases h
  | cons n inets ih =>
    rw [reached] at h
    split at h
    next =>
      obtain hm | hm := List.mem_cons.mp h
      · rw [hm]
        exact List.mem_cons_self
      · exact List.mem_cons_of_mem _ (ih hm)
    next => cases h

theorem MembersFirst.cons_iff {members : GoMap IPNet Unit} {n : IPNet} (hn : n ∈ members) (inets : List IPNet) :
    MembersFirst members (n :: inets) ↔ MembersFirst (members.erase n) inets := by
  apply Iff.intro
  · intro h pre x post hsplit hx m hm hmem
    rw [AList.mem_erase] at hmem hx
    have hx' : x ∉ members ∨ x ∈ n :: pre := by
      rw [List.mem_cons]
      tauto
    have hin := h (n :: pre) x post (by rw [hsplit, List.cons_append]) hx' m hm hmem.2
    exact (List.mem_cons.mp hin).resolve_left hmem.1
  · intro h pre x post hsplit hx m hm hmem
    cases pre with
    | nil =>
      cases hsplit
      exact absurd hn (hx.resolve_right List.not_mem_nil)
    | cons y pre =>
      cases hsplit
      by_cases hmn : m = n
      · rw [hmn]
        exact List.mem_cons_self
      · have hx' : x ∉ members.erase n ∨ x ∈ pre := by
          rw [AList.mem_erase]
          rw [List.mem_cons] at hx
          tauto
        exact List.mem_cons_of_mem _ (h pre x post rfl hx' m hm (AList.mem_erase.mpr ⟨hmn, hmem⟩))

/-- Delete gets to every member among the nets exactly when they come first. -/
theorem reached_all_iff (members : GoMap IPNet Unit) (inets : List IPNet) :
    (∀ m ∈ inets, m ∈ members → m ∈ reached members inets) ↔ MembersFirst members inets := by
  induction inets generalizing members with
  | nil =>
    apply iff_of_true (fun m hm => absurd hm List.not_mem_nil)
    intro pre n post h
    cases pre <;> cases h
  | cons n inets ih =>
    by_cases hn : n ∈ members
    · rw [MembersFirst.cons_iff hn, ← ih, reached, if_pos hn]
      apply Iff.intro
      · intro h m hm hmem
        obtain ⟨hne, hin⟩ := AList.mem_erase.mp hmem
        exact (List.mem_cons.mp (h m (List.mem_cons_of_mem _ hm) hin)).resolve_left hne
      · intro h m hm hmem
        by_cases hmn : m = n
        · rw [hmn]
          exact List.mem_cons_self
        · have hin := (List.mem_cons.mp hm).resolve_left hmn
          exact List.mem_cons_of_mem _ (h m hin (AList.mem_erase.mpr ⟨hmn, hmem⟩))
    · rw [reached, if_neg hn]
      apply Iff.intro
      · intro h pre x post hsplit _ m hm hmem
        have hin : m ∈ n :: inets := by
          rw [hsplit]
          exact List.mem_append_right _ (List.mem_cons_of_mem _ hm)
        exact absurd (h m hin hmem) List.not_mem_nil
      · intro h m hm hmem
        have hne : m ≠ n := fun he => hn (he ▸ hmem)
        exact h [] n inets rfl (Or.inl hn) m ((List.mem_cons.mp hm).resolve_left hne) hmem

/-- Deleting nets from a set does what it should exactly when the members among them come first. -/
theorem delete_exact_iff {i : IPNetSet} (hi : Reachable i) (inets : List IPNet) :
    (∃ i', i.delete inets = some i' ∧ Deletes i inets i') ↔ MembersFirst i.inets inets := by
  obtain ⟨ms, hrep⟩ := hi.represents
  obtain ⟨i', ms', hi', hrep', hmem⟩ := hrep.delete_spec inets
  rw [← reached_all_iff, hi']
  apply Iff.intro
  · intro ⟨j, hj, hdel⟩ m hm hin
    cases hj
    by_contra hno
    exact ((hdel.members m).mp ((hmem m).mpr ⟨hin, hno⟩)).2 hm
  · intro h
    refine ⟨i', rfl, ?_, fun n => hrep'.contains_spec n⟩
    intro m
    rw [hmem]
    apply and_congr_right
    intro hin
    apply not_congr
    apply Iff.intro
    · exact mem_of_reached
    · exact fun hm => h m hm hin

theorem delete_exact_iff_oneAddress :
    (∃ i', oneAddress.delete [⟨0x0A000001, uint32Max⟩] = some i' ∧ Deletes oneAddress [⟨0x0A000001, uint32Max⟩] i') ↔
      MembersFirst oneAddress.inets [⟨0x0A000001, uint32Max⟩] :=
  delete_exact_iff oneAddress_reachable [⟨0x0A000001, uint32Max⟩]

/-- An address that is no member keeps Delete from the member behind it. -/
theorem delete_stops : Reachable oneAddress ∧ ∃ i',
    oneAddress.delete [⟨0x0A000002, uint32Max⟩, ⟨0x0A000001, uint32Max⟩] = some i' ∧
      ¬ Deletes oneAddress [⟨0x0A000002, uint32Max⟩, ⟨0x0A000001, uint32Max⟩] i' := by
  refine ⟨oneAddress_reachable, oneAddress, rfl, ?_⟩
  intro h
  have hin : (⟨0x0A000001, uint32Max⟩ : IPNet) ∈ oneAddress.inets := by decide
  exact ((h.members _).mp hin).2 (by decide)

end Dni
