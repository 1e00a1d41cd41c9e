import Dni.GraphLinks
import Dni.GraphSort

namespace Dni

open GoMap ReadyOrder

/-- The maps after the inputs in `reads`, pairs of a node and a stream it reads, were linked. -/
structure Linked (nodes : Streams) (outs : GoMap String Nat) (reads : List (Nat × String))
    (st : Links) : Prop where
  edges : ∀ a node, nodes[a]? = some node → ∃ m, st.nodeEdge.lookup a = some m ∧
    ∀ s, m.lookup s = if s ∈ node.2 then some ((reads.filter (·.2 = s)).map Prod.fst) else none
  pre : ∀ b < nodes.length, ∃ m, st.preMap.lookup b = some m ∧
    ∀ a, a ∈ m ↔ ∃ s, (b, s) ∈ reads ∧ outs.lookup s = some a
  next : ∀ a < nodes.length, ∃ m, st.nextMap.lookup a = some m ∧
    ∀ b, b ∈ m ↔ ∃ s, (b, s) ∈ reads ∧ outs.lookup s = some a
  preKeys : ∀ b, b ∈ st.preMap ↔ b < nodes.length
  nextKeys : ∀ a, a ∈ st.nextMap ↔ a < nodes.length

section Linking

variable {nodes : Streams} {outs : GoMap String Nat}
  (houts : ∀ s a, outs.lookup s = some a ↔ ∃ node, nodes[a]? = some node ∧ s ∈ node.2)

include houts

theorem source_lt {s : String} {a : Nat} (h : outs.lookup s = some a) : a < nodes.length := by
  obtain ⟨node, hn, _⟩ := (houts s a).mp h
  exact (List.getElem?_eq_some_iff.mp hn).1

omit houts in
theorem read_snoc {reads : List (Nat × String)} {a a' b b' : Nat} {s : String} (hs : outs.lookup s = some a) :
    (∃ x, (b', x) ∈ reads ++ [(b, s)] ∧ outs.lookup x = some a') ↔
      (b' = b ∧ a' = a) ∨ ∃ x, (b', x) ∈ reads ∧ outs.lookup x = some a' := by
  apply Iff.intro
  · intro ⟨x, hx, hxa⟩
    obtain hx | hx := List.mem_append.mp hx
    · exact Or.inr ⟨x, hx, hxa⟩
    · obtain ⟨hb, hxs⟩ := Prod.mk.inj (List.mem_singleton.mp hx)
      rw [hxs, hs] at hxa
      exact Or.inl ⟨hb, (Option.some.inj hxa).symm⟩
  · intro h
    obtain ⟨hb, ha⟩ | ⟨x, hx, hxa⟩ := h
    · exact ⟨s, by simp [hb], by rw [ha, hs]⟩
    · exact ⟨x, by simp [hx], hxa⟩

/-- Linking one input adds its node to the readers of the stream and to both sides of the relation. -/
theorem Linked.link {reads : List (Nat × String)} {st : Links} (h : Linked nodes outs reads st)
    {b a : Nat} {s : String} (hb : b < nodes.length) (hs : outs.lookup s = some a) :
    ∃ st', st.link b s a = some st' ∧ Linked nodes outs (reads ++ [(b, s)]) st' := by
  obtain ⟨node, hnode, hsn⟩ := (houts s a).mp hs
  obtain ⟨edge, hedge, hel⟩ := h.edges a node hnode
  obtain ⟨pre, hpre, hpm⟩ := h.pre b hb
  obtain ⟨next, hnext, hnm⟩ := h.next a (source_lt houts hs)
  refine ⟨⟨st.nodeEdge.insert a (edge.insert s ((edge.lookup s).getD [] ++ [b])),
    st.preMap.insert b (pre.insert a ()), st.nextMap.insert a (next.insert b ())⟩,
    by simp [Links.link, hedge, hpre, hnext], ?_, ?_, ?_, ?_, ?_⟩
  · intro a' node' hnode'
    by_cases ha : a' = a
    · subst ha
      obtain rfl : node' = node := Option.some.inj (hnode'.symm.trans hnode)
      refine ⟨_, AList.lookup_insert _, fun x => ?_⟩
      by_cases hx : x = s
      · subst hx
        rw [AList.lookup_insert, hel, if_pos hsn, if_pos hsn]
        simp
      · rw [AList.lookup_insert_ne hx, hel]
        simp [Ne.symm hx]
    · obtain ⟨m, hm, hml⟩ := h.edges a' node' hnode'
      refine ⟨m, by rw [AList.lookup_insert_ne ha, hm], fun x => ?_⟩
      rw [hml]
      refine if_ctx_congr Iff.rfl (fun hx => ?_) fun _ => rfl
      -- no other node outputs the stream
      have hxs : s ≠ x := by
        intro he
        subst he
        exact ha (Option.some.inj (((houts s a').mpr ⟨node', hnode', hx⟩).symm.trans hs))
      simp [hxs]
  · intro b' hb'
    by_cases hbb : b' = b
    · subst hbb
      refine ⟨_, AList.lookup_insert _, fun a' => ?_⟩
      rw [AList.mem_insert, hpm, read_snoc hs, and_iff_right rfl]
    · obtain ⟨m, hm, hmm⟩ := h.pre b' hb'
      refine ⟨m, by rw [AList.lookup_insert_ne hbb, hm], fun a' => ?_⟩
      rw [hmm, read_snoc hs, or_iff_right fun hba => hbb hba.1]
  · intro a' ha'
    by_cases haa : a' = a
    · subst haa
      refine ⟨_, AList.lookup_insert _, fun b' => ?_⟩
      rw [AList.mem_insert, hnm, read_snoc hs, and_iff_left rfl]
    · obtain ⟨m, hm, hmm⟩ := h.next a' ha'
      refine ⟨m, by rw [AList.lookup_insert_ne haa, hm], fun b' => ?_⟩
      rw [hmm, read_snoc hs, or_iff_right fun hba => haa hba.2]
  · intro b'
    rw [AList.mem_insert, h.preKeys]
    exact or_iff_right_of_imp fun hbb => hbb ▸ hb
  · intro a'
    rw [AList.mem_insert, h.nextKeys]
    exact or_iff_right_of_imp fun haa => haa ▸ source_lt houts hs

theorem linkInputs_spec (gInputs : GoMap String Unit) (nid : Nat) (hnid : nid < nodes.length)
    (inputs : List String) {reads : List (Nat × String)} {st : Links} (h : Linked nodes outs reads st) :
    (∀ s ∈ inputs, s ∈ gInputs ∨ s ∈ outs) ∧ (∃ st', linkInputs gInputs outs nid inputs st = some (.ok st') ∧
        Linked nodes outs (reads ++ (inputs.filter (· ∉ gInputs)).map (nid, ·)) st') ∨
      ¬ (∀ s ∈ inputs, s ∈ gInputs ∨ s ∈ outs) ∧
        ∃ s, linkInputs gInputs outs nid inputs st = some (.error (.inputSource nid s)) := by
  induction inputs generalizing reads st with
  | nil => exact Or.inl ⟨by simp, st, rfl, by simpa using h⟩
  | cons s inputs ih =>
    unfold linkInputs
    simp only [List.forall_mem_cons]
    split
    next hg =>
      rcases ih h with ⟨hall, st', hl, hst⟩ | ⟨hno, e, hl⟩
      · exact Or.inl ⟨⟨Or.inl hg, hall⟩, st', hl, by simpa [hg] using hst⟩
      · exact Or.inr ⟨fun hc => hno hc.2, e, hl⟩
    next hg =>
      split
      next hnone =>
        have hs : s ∉ outs := fun hm => by
          obtain ⟨a, ha⟩ := mem_iff_lookup.mp hm
          rw [hnone] at ha
          cases ha
        exact Or.inr ⟨fun hc => hc.1.elim hg hs, s, rfl⟩
      next a hs =>
        obtain ⟨st₁, hlink, h₁⟩ := h.link houts hnid hs
        rw [hlink, Option.bind_some]
        rcases ih h₁ with ⟨hall, st', hl, hst⟩ | ⟨hno, e, hl⟩
        · exact Or.inl ⟨⟨Or.inr (mem_iff_lookup.mpr ⟨a, hs⟩), hall⟩, st', hl, by simpa [hg] using hst⟩
        · exact Or.inr ⟨fun hc => hno hc.2, e, hl⟩

/-- The inputs that the loop over the nodes links, in its order. -/
def readsFrom (gInputs : GoMap String Unit) (nid : Nat) : List (List String) → List (Nat × String)
  | [] => []
  | inputs :: rest => (inputs.filter (· ∉ gInputs)).map (nid, ·) ++ readsFrom gInputs (nid + 1) rest

theorem linkNodes_spec (gInputs : GoMap String Unit) (nid : Nat) (rest : List (List String))
    (hnid : nid + rest.length ≤ nodes.length) {reads : List (Nat × String)} {st : Links}
    (h : Linked nodes outs reads st) :
    (∀ inputs ∈ rest, ∀ s ∈ inputs, s ∈ gInputs ∨ s ∈ outs) ∧
        (∃ st', linkNodes gInputs outs nid rest st = some (.ok st') ∧
          Linked nodes outs (reads ++ readsFrom gInputs nid rest) st') ∨
      ¬ (∀ inputs ∈ rest, ∀ s ∈ inputs, s ∈ gInputs ∨ s ∈ outs) ∧
        ∃ e, e ≠ .loop ∧ linkNodes gInputs outs nid rest st = some (.error e) := by
  induction rest generalizing nid reads st with
  | nil => exact Or.inl ⟨by simp, st, rfl, by simpa [readsFrom] using h⟩
  | cons inputs rest ih =>
    rw [List.length_cons] at hnid
    unfold linkNodes
    rw [List.forall_mem_cons]
    rcases linkInputs_spec houts gInputs nid (by omega) inputs h with
      ⟨hall, st₁, hl, h₁⟩ | ⟨hno, s, hl⟩
    · rw [hl, Option.bind_some]
      rcases ih (nid + 1) (by omega) h₁ with ⟨hall', st', hl', hst⟩ | ⟨hno, e, hne, hl'⟩
      · exact Or.inl ⟨⟨hall, hall'⟩, st', hl', by simpa [readsFrom] using hst⟩
      · exact Or.inr ⟨fun hc => hno hc.2, e, hne, hl'⟩
    · rw [hl]
      exact Or.inr ⟨fun hc => hno hc.1, _, by simp, rfl⟩

end Linking

end Dni
