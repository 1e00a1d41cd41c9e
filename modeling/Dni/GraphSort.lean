import Dni.GraphConfig
import Dni.Lib.ReadyOrder

namespace Dni

open GoMap ReadyOrder

theorem visitNext_spec {l : List Nat} (hl : l.Nodup) {nodeCount : List Int}
    (hb : ∀ b ∈ l, b < nodeCount.length) (q : List Nat) :
    ∃ nodeCount', visitNext l nodeCount q =
        some (nodeCount', q ++ l.filter fun b => nodeCount[b]? = some 1) ∧
      nodeCount'.length = nodeCount.length ∧
      ∀ b, nodeCount'[b]? = if b ∈ l then nodeCount[b]?.map (· - 1) else nodeCount[b]? := by
  induction l generalizing nodeCount q with
  | nil => exact ⟨nodeCount, by simp [visitNext], rfl, by simp⟩
  | cons x l ih =>
    obtain ⟨hx, hl⟩ := List.nodup_cons.mp hl
    have hxb := hb x (by simp)
    have hget : nodeCount[x]? = some nodeCount[x] := List.getElem?_eq_getElem hxb
    obtain ⟨nc, hv, hlen, hnc⟩ := @ih hl (nodeCount.set x (nodeCount[x] - 1))
      (fun b hb' => by rw [List.length_set]; exact hb b (by simp [hb']))
      (if nodeCount[x] - 1 = 0 then q ++ [x] else q)
    have hset : ∀ b, b ≠ x → (nodeCount.set x (nodeCount[x] - 1))[b]? = nodeCount[b]? :=
      fun b hbx => List.getElem?_set_ne hbx.symm
    refine ⟨nc, ?_, by rw [hlen, List.length_set], fun b => ?_⟩
    · rw [visitNext, hget]
      simp only [Option.bind_eq_bind, Option.bind_some]
      rw [hv, List.filter_cons, hget]
      have hfilter : (l.filter fun b => (nodeCount.set x (nodeCount[x] - 1))[b]? = some 1) =
          l.filter fun b => nodeCount[b]? = some 1 := by
        refine List.filter_congr fun b hb' => ?_
        rw [hset b (by rintro rfl; exact hx hb')]
      rw [hfilter]
      by_cases h1 : nodeCount[x] = 1
      · simp [h1]
      · have h0 : ¬ nodeCount[x] - 1 = 0 := by omega
        simp [h1, h0]
    · rw [hnc]
      by_cases hbx : b = x
      · subst hbx
        simp [hx, hxb]
      · simp [hbx, hset b hbx]

/-- The two maps describe one relation over the first `n` nodes from both of its sides. -/
structure Dual (n : Nat) (preList nextList : NodeLinks) : Prop where
  size : preList.keys.length = n
  dual : ∀ a b, a ∈ linked preList b ↔ b ∈ linked nextList a
  bound : ∀ a b, a ∈ linked preList b → a < n ∧ b < n

def Feeds (preList : NodeLinks) (a b : Nat) : Prop := a ∈ linked preList b

/-- How many predecessors of a node are not sorted yet. -/
def waiting (preList : NodeLinks) (sorted : List Nat) (b : Nat) : Nat :=
  ((linked preList b).keys.filter (· ∉ sorted)).length

theorem waiting_eq_zero {preList : NodeLinks} {sorted : List Nat} {b : Nat} :
    waiting preList sorted b = 0 ↔ ∀ a, Feeds preList a b → a ∈ sorted := by
  rw [waiting, List.length_eq_zero_iff, List.filter_eq_nil_iff]
  simp only [decide_eq_true_eq, not_not, Feeds, AList.mem_keys]

theorem waiting_concat {preList : NodeLinks} {sorted : List Nat} {p b : Nat} (hp : p ∉ sorted) :
    waiting preList sorted b =
      waiting preList (sorted ++ [p]) b + if p ∈ linked preList b then 1 else 0 := by
  have hnd := (linked preList b).nodupKeys
  change ((linked preList b).keys).Nodup at hnd
  simp only [waiting, AList.mem_keys, ← List.countP_eq_length_filter]
  generalize (linked preList b).keys = l at hnd
  induction l with
  | nil => simp
  | cons x l ih =>
    obtain ⟨hx, hl⟩ := List.nodup_cons.mp hnd
    have hi := ih hl
    rw [List.countP_cons, List.countP_cons, hi]
    by_cases hxp : p = x
    · subst hxp
      rw [if_neg hx, if_pos (by simpa using hp), if_neg (by simp), if_pos (by simp)]
    · have h1 : (x ∉ sorted ++ [p]) ↔ x ∉ sorted := by simp [Ne.symm hxp]
      have h2 : p ∈ x :: l ↔ p ∈ l := by simp [hxp]
      simp only [decide_eq_true_eq, h1, h2]
      omega

/-- The invariant of the queue loop: a node is sorted or queued once no predecessor is waiting. -/
structure Sorting (n : Nat) (preList : NodeLinks) (nodeCount : List Int) (q sorted : List Nat) :
    Prop where
  nodup : (sorted ++ q).Nodup
  bound : ∀ b ∈ sorted ++ q, b < n
  length : nodeCount.length = n
  counts : ∀ b < n, nodeCount[b]? = some (waiting preList sorted b : Int)
  ready : ∀ b < n, b ∈ sorted ++ q ↔ waiting preList sorted b = 0
  ordered : Ordered (Feeds preList) sorted

theorem Sorting.pop {n : Nat} {preList nextList : NodeLinks} (hd : Dual n preList nextList)
    (ord : Order Nat Unit) {nodeCount : List Int} {p : Nat} {q sorted : List Nat}
    (h : Sorting n preList nodeCount (p :: q) sorted) :
    ∃ nodeCount' q', visitNext (ord.keys (linked nextList p)) nodeCount q = some (nodeCount', q') ∧
      Sorting n preList nodeCount' q' (sorted ++ [p]) := by
  have hnext : ∀ b, b ∈ ord.keys (linked nextList p) ↔ p ∈ linked preList b := fun b => by
    rw [Order.mem_keys, hd.dual]
  obtain ⟨nc, hv, hlen, hnc⟩ := @visitNext_spec _ (ord.keys_nodup (linked nextList p)) nodeCount
    (fun b hb => by
      rw [h.length]; exact (hd.bound p b ((hnext b).mp hb)).2) q
  refine ⟨nc, _, hv, ?_⟩
  have hp : p ∉ sorted := fun hps => (List.nodup_append.mp h.nodup).2.2 p hps p (by simp) rfl
  have hpn : p < n := h.bound p (by simp)
  have hwait := fun b => @waiting_concat preList sorted p b hp
  have hfresh : ∀ b, b ∈ (ord.keys (linked nextList p)).filter (fun b => nodeCount[b]? = some 1) ↔
      p ∈ linked preList b ∧ waiting preList sorted b = 1 := by
    intro b
    rw [List.mem_filter, hnext, decide_eq_true_eq]
    refine and_congr_right fun hb => ?_
    rw [h.counts b (hd.bound p b hb).2, Option.some_inj]
    omega
  refine ⟨?_, fun b hb => ?_, by rw [hlen, h.length], fun b hb => ?_, fun b hb => ?_, ?_⟩
  · rw [List.append_assoc, List.singleton_append, ← List.cons_append, ← List.append_assoc]
    refine List.nodup_append.mpr ⟨h.nodup, (ord.keys_nodup _).filter _, ?_⟩
    rintro a ha b hb rfl
    obtain ⟨hpb, hw⟩ := (hfresh a).mp hb
    have := (h.ready a (hd.bound p a hpb).2).mp ha
    omega
  · rw [List.append_assoc, List.singleton_append, ← List.cons_append, ← List.append_assoc,
      List.mem_append] at hb
    rcases hb with hb | hb
    · exact h.bound b hb
    · exact (hd.bound p b ((hfresh b).mp hb).1).2
  · rw [hnc, h.counts b hb, hwait b]
    by_cases hpb : p ∈ linked preList b
    · rw [if_pos ((hnext b).mpr hpb), if_pos hpb]
      simp
    · rw [if_neg (fun hm => hpb ((hnext b).mp hm)), if_neg hpb]
      simp
  · rw [List.append_assoc, List.singleton_append, ← List.cons_append, ← List.append_assoc,
      List.mem_append, h.ready b hb, hfresh, hwait b]
    by_cases hpb : p ∈ linked preList b <;> simp [hpb]
  · exact h.ordered.concat fun a ha => waiting_eq_zero.mp ((h.ready p hpn).mp (by simp)) a ha

theorem Sorting.length_le {n : Nat} {preList : NodeLinks} {nodeCount : List Int} {q sorted : List Nat}
    (h : Sorting n preList nodeCount q sorted) : (sorted ++ q).length ≤ n := by
  have hsub : sorted ++ q ⊆ List.range n := fun b hb => List.mem_range.mpr (h.bound b hb)
  simpa using (h.nodup.subperm hsub).length_le

theorem sortLoop_spec {n : Nat} {preList nextList : NodeLinks} (hd : Dual n preList nextList)
    (ord : Nat → Order Nat Unit) {fuel : Nat} {nodeCount : List Int} {q sorted : List Nat}
    (h : Sorting n preList nodeCount q sorted) (hf : n ≤ fuel + sorted.length) :
    ∃ nodeCount' out, sortLoop ord nextList fuel nodeCount q sorted = some out ∧
      Sorting n preList nodeCount' [] out := by
  induction fuel generalizing nodeCount q sorted with
  | zero =>
    cases q with
    | nil => exact ⟨nodeCount, sorted, by rw [sortLoop], h⟩
    | cons p q =>
      have := h.length_le
      simp only [List.length_append, List.length_cons] at this
      omega
  | succ fuel ih =>
    cases q with
    | nil => exact ⟨nodeCount, sorted, by rw [sortLoop], h⟩
    | cons p q =>
      obtain ⟨nc, q', hv, hs⟩ := h.pop hd (ord p)
      obtain ⟨nc', out, ho, hout⟩ := ih hs (by simp only [List.length_append, List.length_singleton]; omega)
      exact ⟨nc', out, by rw [sortLoop, hv]; exact ho, hout⟩

theorem sorting_start (n : Nat) (preList : NodeLinks) :
    Sorting n preList ((List.range n).map fun nid => ((linked preList nid).keys.length : Int))
      ((List.range n).filter fun nid => (linked preList nid).keys.length = 0) [] := by
  have hwait : ∀ b, waiting preList [] b = (linked preList b).keys.length := by simp [waiting]
  refine ⟨by simpa using List.nodup_range.filter _, fun b hb => ?_, by simp, fun b hb => ?_,
    fun b hb => ?_, Ordered.nil⟩
  · simp only [List.nil_append, List.mem_filter, List.mem_range] at hb
    exact hb.1
  · rw [hwait, List.getElem?_map, List.getElem?_range hb]
    rfl
  · rw [hwait]
    simp [hb]

/-- The sort reports a loop exactly for a cyclic relation, and otherwise lists every node behind its
predecessors. -/
theorem isExistLoop_spec {n : Nat} {preList nextList : NodeLinks} (hd : Dual n preList nextList)
    (ord : Nat → Order Nat Unit) :
    ∃ sorted loop, isExistLoop ord preList nextList = some (sorted, loop) ∧
      (loop = true ↔ ∃ a, Relation.TransGen (Feeds preList) a a) ∧
      (loop = false → sorted.Perm (List.range n) ∧ Ordered (Feeds preList) sorted) := by
  obtain ⟨nc, sorted, hs, h⟩ := @sortLoop_spec n preList nextList hd ord n _ _ _ (sorting_start n preList) (by simp)
  have hnd : sorted.Nodup := by simpa using h.nodup
  have hbound : ∀ b ∈ sorted, b < n := fun b hb => h.bound b (by simp [hb])
  have hperm : sorted.length = n → sorted.Perm (List.range n) := fun hlen =>
    (hnd.subperm fun b hb => List.mem_range.mpr (hbound b hb)).perm_of_length_le (by simp [hlen])
  refine ⟨sorted, decide (sorted.length ≠ n), ?_, ?_, fun hl => ?_⟩
  · unfold isExistLoop
    simp only [hd.size, hs]
    simp
  · rw [decide_eq_true_eq]
    constructor
    · intro hne
      refine exists_cycle (s := {b | b < n ∧ b ∉ sorted}) ((Set.finite_lt_nat n).subset fun b hb => hb.1)
        ?_ fun b hb => ?_
      · by_contra hempty
        have hsub : List.range n ⊆ sorted := fun b hb => by_contra fun hbs =>
          hempty ⟨b, List.mem_range.mp hb, hbs⟩
        have h1 := (List.nodup_range.subperm hsub).length_le
        have h2 := h.length_le
        simp only [List.length_range, List.append_nil] at h1 h2
        omega
      · have hw := (h.ready b hb.1).not.mp (by simpa using hb.2)
        rw [waiting_eq_zero] at hw
        push Not at hw
        obtain ⟨a, hab, ha⟩ := hw
        exact ⟨a, ⟨(hd.bound a b hab).1, ha⟩, hab⟩
    · rintro hc hlen
      refine h.ordered.acyclic hnd (fun a b hab => ?_) hc
      exact (hperm hlen).mem_iff.mpr (List.mem_range.mpr (hd.bound a b hab).2)
  · rw [decide_eq_false_iff_not, not_not] at hl
    exact ⟨hperm hl, h.ordered⟩

end Dni
