import Dni.GraphConfig

namespace Dni

open GoMap

/-- The nodes of a graph as pairs of their inputs and their outputs. -/
abbrev Streams := List (List String × List String)

@[simp] theorem mem_nameSet {names : List String} {s : String} : s ∈ nameSet names ↔ s ∈ names := by
  have h : ∀ m : GoMap String Unit, s ∈ names.foldl (fun m name => m.insert name ()) m ↔
      s ∈ names ∨ s ∈ m := by
    induction names with
    | nil => simp
    | cons x names ih =>
      intro m
      rw [List.foldl_cons, ih, AList.mem_insert, List.mem_cons]
      tauto
  rw [nameSet, h]
  simp

/-- Names that are distinct and new, one of them recorded. -/
theorem nodup_new_cons_iff {ν : Type} {m : GoMap String ν} {s : String} {names : List String} (hs : s ∉ m) (v : ν) :
    ((s :: names).Nodup ∧ ∀ x ∈ s :: names, x ∉ m) ↔ names.Nodup ∧ ∀ x ∈ names, x ∉ m.insert s v := by
  simp only [List.nodup_cons, List.forall_mem_cons, AList.mem_insert, not_or]
  apply Iff.intro
  · intro ⟨⟨hn, hd⟩, _, h⟩
    exact ⟨hd, fun x hx => ⟨fun hxs => hn (hxs ▸ hx), h x hx⟩⟩
  · intro ⟨hd, h⟩
    exact ⟨⟨fun hn => (h s hn).1 rfl, hd⟩, hs, fun x hx => (h x hx).2⟩

theorem checkInputs_spec (nid : Nat) (inputs : List String) (m : GoMap String Unit) :
    (inputs.Nodup ∧ ∀ s ∈ inputs, s ∉ m) ∧ checkInputs nid inputs m = .ok () ∨
      ¬ (inputs.Nodup ∧ ∀ s ∈ inputs, s ∉ m) ∧ ∃ s, checkInputs nid inputs m = .error (.sameInput nid s) := by
  induction inputs generalizing m with
  | nil => simp [checkInputs]
  | cons s inputs ih =>
    unfold checkInputs
    split
    next hs => exact Or.inr ⟨fun h => h.2 s (by simp) hs, s, rfl⟩
    next hs =>
      rw [nodup_new_cons_iff hs ()]
      exact ih _

/-- The outputs are recorded under the node when all of them are new. -/
theorem addOutputs_spec (nid : Nat) (outputs : List String) (outs : GoMap String Nat)
    (edge : GoMap String (List Nat)) :
    (outputs.Nodup ∧ ∀ s ∈ outputs, s ∉ outs) ∧ (∃ outs' edge',
        addOutputs nid outputs outs edge = .ok (outs', edge') ∧
        (∀ s, outs'.lookup s = if s ∈ outputs then some nid else outs.lookup s) ∧
        ∀ s, edge'.lookup s = if s ∈ outputs then some [] else edge.lookup s) ∨
      ¬ (outputs.Nodup ∧ ∀ s ∈ outputs, s ∉ outs) ∧
        ∃ s, addOutputs nid outputs outs edge = .error (.sameOutput s) := by
  induction outputs generalizing outs edge with
  | nil => simp [addOutputs]
  | cons s outputs ih =>
    unfold addOutputs
    split
    next hs => exact Or.inr ⟨fun h => h.2 s (by simp) hs, s, rfl⟩
    next hs =>
      rw [nodup_new_cons_iff hs nid]
      obtain ⟨hok, outs', edge', h, ho, he⟩ | hbad := ih (outs.insert s nid) (edge.insert s [])
      · refine Or.inl ⟨hok, outs', edge', h, ?_, ?_⟩
        · intro x
          rw [ho, lookup_insert_mem]
        · intro x
          rw [he, lookup_insert_mem]
      · exact Or.inr hbad

/-- What the loop over the nodes records: who outputs a stream, and an empty reader list for it. -/
structure Recorded (nid : Nat) (nodes : Streams) (outs outs' : GoMap String Nat)
    (edges edges' : NodeEdges) : Prop where
  outputs : ∀ s a, outs'.lookup s = some a ↔
    (∃ k node, nodes[k]? = some node ∧ s ∈ node.2 ∧ a = nid + k) ∨ outs.lookup s = some a
  recorded : ∀ k node, nodes[k]? = some node →
    ∃ m, edges'.lookup (nid + k) = some m ∧ ∀ s, m.lookup s = if s ∈ node.2 then some [] else none
  frame : ∀ a, a < nid → edges'.lookup a = edges.lookup a

theorem addNodes_spec (nid : Nat) (nodes : Streams) (outs : GoMap String Nat) (edges : NodeEdges) :
    ((∀ node ∈ nodes, node.1.Nodup) ∧ (nodes.flatMap Prod.snd).Nodup ∧
        ∀ s ∈ nodes.flatMap Prod.snd, s ∉ outs) ∧
      (∃ outs' edges', addNodes nid nodes outs edges = .ok (outs', edges') ∧
        Recorded nid nodes outs outs' edges edges') ∨
    ¬ ((∀ node ∈ nodes, node.1.Nodup) ∧ (nodes.flatMap Prod.snd).Nodup ∧
        ∀ s ∈ nodes.flatMap Prod.snd, s ∉ outs) ∧
      ∃ e, e ≠ .loop ∧ addNodes nid nodes outs edges = .error e := by
  induction nodes generalizing nid outs edges with
  | nil => exact Or.inl ⟨by simp, outs, edges, rfl, by simp, by simp, fun _ _ => rfl⟩
  | cons node nodes ih =>
    obtain ⟨inputs, outputs⟩ := node
    unfold addNodes
    rcases checkInputs_spec nid inputs ∅ with ⟨hin, hci⟩ | ⟨hin, s, hci⟩
    · rcases addOutputs_spec nid outputs outs ∅ with ⟨hout, outs₁, edge, hao, ho, he⟩ | ⟨hout, s, hao⟩
      · have hmem : ∀ x, x ∈ outs₁ ↔ x ∈ outputs ∨ x ∈ outs := fun x => by
          rw [mem_iff_lookup, ho, mem_iff_lookup]
          by_cases hx : x ∈ outputs <;> simp [hx]
        have hiff : ((∀ node ∈ (inputs, outputs) :: nodes, node.1.Nodup) ∧
            (((inputs, outputs) :: nodes).flatMap Prod.snd).Nodup ∧
            ∀ s ∈ ((inputs, outputs) :: nodes).flatMap Prod.snd, s ∉ outs) ↔
            (∀ node ∈ nodes, node.1.Nodup) ∧ (nodes.flatMap Prod.snd).Nodup ∧
            ∀ s ∈ nodes.flatMap Prod.snd, s ∉ outs₁ := by
          simp only [List.forall_mem_cons, List.flatMap_cons, List.nodup_append, List.forall_mem_append,
            hmem, not_or]
          constructor
          · intro h
            rcases h with ⟨⟨_, hn⟩, ⟨_, hd, hdis⟩, _, h⟩
            exact ⟨hn, hd, fun x hx => ⟨fun hxo => hdis x hxo x hx rfl, h x hx⟩⟩
          · intro h
            rcases h with ⟨hn, hd, h⟩
            refine ⟨⟨hin.1, hn⟩, ⟨hout.1, hd, ?_⟩, hout.2, fun x hx => (h x hx).2⟩
            rintro x hx y hy rfl
            exact (h x hy).1 hx
        rw [hiff]
        rcases ih (nid + 1) outs₁ (edges.insert nid edge) with
          ⟨hok, outs', edges', han, hrec⟩ | ⟨hbad, e, hne, han⟩
        · refine Or.inl ⟨hok, outs', edges', ?_, fun x a => ?_, fun k node hk => ?_, fun a ha => ?_⟩
          · simp only [hci, hao, han, bind, Except.bind]
          · rw [hrec.outputs, ho]
            constructor
            · rintro (⟨k, node, hk, hx, rfl⟩ | h)
              · exact Or.inl ⟨k + 1, node, by simpa using hk, hx, by omega⟩
              · split at h
                next hx => exact Or.inl ⟨0, _, rfl, hx, by simpa using h.symm⟩
                next hx => exact Or.inr h
            · rintro (⟨k, node, hk, hx, rfl⟩ | h)
              · cases k with
                | zero =>
                  cases Option.some.inj hk
                  exact Or.inr (by rw [if_pos hx]; rfl)
                | succ k => exact Or.inl ⟨k, node, by simpa using hk, hx, by omega⟩
              · refine Or.inr ?_
                rw [if_neg fun hx => hout.2 x hx (mem_iff_lookup.mpr ⟨a, h⟩)]
                exact h
          · cases k with
            | zero =>
              cases Option.some.inj hk
              refine ⟨edge, ?_, fun x => by simpa using he x⟩
              rw [Nat.add_zero, hrec.frame nid (by omega), AList.lookup_insert]
            | succ k =>
              obtain ⟨m, hm, hs⟩ := hrec.recorded k node (by simpa using hk)
              exact ⟨m, by rw [← hm]; congr 1; omega, hs⟩
          · rw [hrec.frame a (by omega), AList.lookup_insert_ne (by omega)]
        · exact Or.inr ⟨hbad, e, hne, by simp only [hci, hao, han, bind, Except.bind]⟩
      · refine Or.inr ⟨fun h => hout ?_, .sameOutput s, by simp, by simp only [hci, hao, bind, Except.bind]⟩
        rw [List.flatMap_cons, List.nodup_append] at h
        exact ⟨h.2.1.1, fun x hx => h.2.2 x (List.mem_append_left _ hx)⟩
    · refine Or.inr ⟨fun h => hin ⟨h.1 (inputs, outputs) (by simp), by simp⟩, .sameInput nid s, by simp, ?_⟩
      simp only [hci, bind, Except.bind]

end Dni
