import Dni.RemoveRangeMerge

namespace Dni

open Bytes SortSearch Sweep

/-- Merged ranges of the list `l` at heap `h`, in order and with their starts in the caller's arrays. -/
structure Laid (n base : Nat) (h : Heap) (l : List (IRange IP)) (ms : List (Range Nat)) : Prop where
  valid : ∀ r ∈ ms, value h r.start ≤ value h r.stop
  order : ms.Pairwise (Apart h)
  held : ∀ r ∈ ms, r.start < base
  refs : ∀ r ∈ ms, r.start < h.length ∧ r.stop < h.length
  covers : ∀ a, (∃ i ∈ l, i.Covers a) ↔ a.length = n ∧ ∃ r ∈ ms, r.Spans h (val a)

theorem covers_iff_spans {n : Nat} {h : Heap} (hp : Plain n h) {r : Range Nat} (hr : r.start < h.length)
    (a : IP) : (r.map (read h)).Covers a ↔ a.length = n ∧ r.Spans h (val a) := by
  rw [← (hp _ (read_mem hr)).1]
  rfl

theorem sortAndMergeAt_spec {n : Nat} (sort : HeapSorter) {h₀ : Heap} {l : List (IRange Nat)}
    (hin : HeldIn n h₀ l) (ext : Heap) (hp : Plain n (h₀ ++ ext)) :
    ∃ ext' rs, toRangesAt (h₀ ++ ext) l = some (h₀ ++ ext ++ ext', rs) ∧ Plain n (h₀ ++ ext ++ ext') ∧
      (∀ r ∈ rs, r.stop < h₀.length ∨ (h₀ ++ ext).length ≤ r.stop) ∧
      (∀ r ∈ rs, (r.map (read (h₀ ++ ext ++ ext'))).Valid ∧ r.start < (h₀ ++ ext ++ ext').length) ∧
      Laid n h₀.length (h₀ ++ ext ++ ext') (l.map (IRange.map (read h₀)))
        (mergeRanges (read (h₀ ++ ext ++ ext')) (sort (h₀ ++ ext ++ ext')) rs) := by
  obtain ⟨ext', rs, hto, hp', hr⟩ := toRangesAt_spec hin ext hp
  have hlen : h₀.length ≤ (h₀ ++ ext ++ ext').length := by simp
  refine ⟨ext', rs, hto, hp', fun r hrr => (hr.stop r hrr).imp_right And.left, ?_⟩
  generalize h₀ ++ ext ++ ext' = h at hp' hr hlen ⊢
  have hvl : ∀ i ∈ l.map (IRange.map (read h₀)), i.Valid := fun i hi => by
    obtain ⟨j, hj, rfl⟩ := List.mem_map.mp hi
    exact hin.valid j hj
  obtain ⟨rs', hrs', hvs, hcs⟩ := mapM_toRange_spec hvl
  obtain rfl := Option.some.inj (hr.ranges.symm.trans hrs')
  have hv : ∀ r ∈ rs, (r.map (read h)).Valid := fun r hrr => hvs _ (List.mem_map_of_mem hrr)
  obtain ⟨h1, h2, h3⟩ := mergeRanges_spec (read h) (sort h) hv
  have hends := mergeRanges_ends (read h) (sort h) (P := (· < h₀.length))
    (Q := (· < h.length)) hr.start fun r hrr =>
    (hr.stop r hrr).elim (fun hb => lt_of_lt_of_le hb hlen) And.right
  have hstart : ∀ r ∈ mergeRanges (read h) (sort h) rs, r.start < h.length := fun r hrr =>
    lt_of_lt_of_le (hends r hrr).1 hlen
  refine ⟨fun r hrr => ⟨hv r hrr, lt_of_lt_of_le (hr.start r hrr) hlen⟩,
    fun r hrr => (h1 r hrr).2.2, h2.imp_of_mem fun {a b} ha hb hab => ?_, fun r hrr => (hends r hrr).1,
    fun r hrr => ⟨hstart r hrr, (hends r hrr).2⟩, fun a => ?_⟩
  · have hl := (hp' _ (read_mem (hstart a ha))).1.trans (hp' _ (read_mem (hstart b hb))).1.symm
    rcases hab with hab | hab
    · exact absurd hab (by simp only [Range.map, hl, lt_irrefl, not_false_eq_true])
    · exact hab.2
  · rw [hcs]
    simp only [List.mem_map, exists_exists_and_eq_and]
    rw [← h3]
    constructor
    · intro h
      rcases h with ⟨r, hrr, hc⟩
      obtain ⟨hl, hs⟩ := (covers_iff_spans hp' (hstart r hrr) a).mp hc
      exact ⟨hl, r, hrr, hs⟩
    · intro h
      rcases h with ⟨hl, r, hrr, hs⟩
      exact ⟨r, hrr, (covers_iff_spans hp' (hstart r hrr) a).mpr ⟨hl, hs⟩⟩

theorem value_append {h : Heap} {r : Nat} (hr : r < h.length) (ext : Heap) :
    value (h ++ ext) r = value h r := by
  rw [value, read_append hr, value]

theorem Laid.append {n base : Nat} {h : Heap} {l : List (IRange IP)} {ms : List (Range Nat)}
    (hl : Laid n base h l ms) (ext : Heap) : Laid n base (h ++ ext) l ms := by
  have hv : ∀ r ∈ ms, SameAt h (h ++ ext) r := fun r hr =>
    ⟨value_append (hl.refs r hr).1 ext, value_append (hl.refs r hr).2 ext⟩
  refine ⟨fun r hr => ?_, hl.order.imp_of_mem fun {a b} ha hb hab => ?_, hl.held, fun r hr => ?_,
    fun a => ?_⟩
  · rw [(hv r hr).1, (hv r hr).2]
    exact hl.valid r hr
  · rw [Apart, (hv a ha).2, (hv b hb).1]
    exact hab
  · have := hl.refs r hr
    rw [List.length_append]
    omega
  · rw [hl.covers, exists_spans_congr hv]

/-- Both lists before the sweep: the heap with the new arrays, the merged ranges, and the ranges
that the removals were merged from. -/
structure Prepared (n : Nat) (sort : HeapSorter) (h₀ : Heap) (ins outs : List (IRange Nat)) (h : Heap)
    (mi mo rs : List (Range Nat)) : Prop where
  plain : Plain n h
  kept : ∀ r < h₀.length, read h r = read h₀ r
  laidIns : Laid n h₀.length h (ins.map (IRange.map (read h₀))) mi
  laidOuts : Laid n h₀.length h (outs.map (IRange.map (read h₀))) mo
  merged : mo = mergeRanges (read h) (sort h) rs
  ranges : ∀ r ∈ rs, (r.map (read h)).Valid ∧ r.start < h.length
  run : removeRange sort h₀ ins outs = removeLoop (mi.length + mo.length) h mi mo []

theorem exists_prepared {n : Nat} (sort : HeapSorter) {h₀ : Heap} {ins outs : List (IRange Nat)}
    (hin : HeldIn n h₀ ins) (hout : HeldIn n h₀ outs) :
    ∃ h₁ is h rs mi mo, toRangesAt h₀ ins = some (h₁, is) ∧ toRangesAt h₁ outs = some (h, rs) ∧
      Prepared n sort h₀ ins outs h mi mo rs := by
  have hfirst := sortAndMergeAt_spec sort hin []
  rw [List.append_nil] at hfirst
  obtain ⟨e₁, is, hto₁, hp₁, _, _, hl₁⟩ := hfirst hin.arrays
  obtain ⟨e₂, rs, hto₂, hp₂, _, hrs, hl₂⟩ := sortAndMergeAt_spec sort hout e₁ hp₁
  refine ⟨_, is, _, rs, _, _, hto₁, hto₂, hp₂, fun r hr => ?_, hl₁.append e₂, hl₂, rfl, hrs, ?_⟩
  · rw [List.append_assoc, read_append hr]
  · simp only [removeRange, sortAndMergeAt, hto₁, hto₂, Option.map_some, Option.bind_eq_bind,
      Option.bind_some]

theorem Prepared.clean {n : Nat} {sort : HeapSorter} {h₀ h : Heap} {ins outs : List (IRange Nat)}
    {mi mo rs : List (Range Nat)} (hp : Prepared n sort h₀ ins outs h mi mo rs) :
    Clean n h₀.length h₀ (fun x => ∃ r ∈ mi, r.Spans h x) (fun x => ∃ r ∈ mo, r.Spans h x)
      ⟨h, mi, mo, []⟩ :=
  ⟨⟨⟨hp.plain, hp.laidIns.refs, hp.laidOuts.refs⟩, hp.laidIns.valid, hp.laidIns.order, hp.laidOuts.valid, hp.laidOuts.order,
    hp.laidOuts.held, fun o ho x hx => ⟨o, ho, hx⟩, hp.kept⟩, by simp, by simp, fun x => by simp⟩

/-- The call does what it should exactly when every pair of merged ranges that meet fits. -/
theorem Prepared.exact_iff {n : Nat} {sort : HeapSorter} {h₀ h : Heap} {ins outs : List (IRange Nat)}
    {mi mo rs : List (Range Nat)} (hp : Prepared n sort h₀ ins outs h mi mo rs) :
    RemovesExactly sort h₀ ins outs ↔ AllFit h₀.length ⟨h, mi, mo, []⟩ := by
  have hcov : ∀ {l : List (IRange Nat)} {ms}, Laid n h₀.length h (l.map (IRange.map (read h₀))) ms →
      ∀ a, CoversAt h₀ l a ↔ a.length = n ∧ ∃ r ∈ ms, r.Spans h (val a) := fun hl a => by
    rw [← hl.covers]
    simp [CoversAt]
  obtain ⟨st, hrun, hend, hres⟩ := removeLoop_run _ hp.clean.sound (Nat.le_refl _)
  obtain ⟨hgood, hbad⟩ := hp.clean.end_spec hrun hend
  obtain ⟨hsound, hmin⟩ := hp.clean.sound.run (by simp) hrun
  rw [← hp.run] at hres
  have hspan : ∀ a, (∃ r ∈ st.min ++ st.ins, (r.map (read st.heap)).Covers a) ↔
      a.length = n ∧ ∃ r ∈ st.min ++ st.ins, r.Spans st.heap (val a) := by
    intro a
    have hrefs : ∀ r ∈ st.min ++ st.ins, r.start < st.heap.length := fun r hr =>
      (List.mem_append.mp hr).elim (hmin r) fun hi => (hsound.ins r hi).1
    constructor
    · intro h
      rcases h with ⟨r, hr, hc⟩
      obtain ⟨hl, hs⟩ := (covers_iff_spans hsound.plain (hrefs r hr) a).mp hc
      exact ⟨hl, r, hr, hs⟩
    · intro h
      rcases h with ⟨hl, r, hr, hs⟩
      exact ⟨r, hr, (covers_iff_spans hsound.plain (hrefs r hr) a).mpr ⟨hl, hs⟩⟩
  constructor
  · intro h
    rcases h with ⟨h', res, hrun', hcov', _, hkept'⟩
    obtain ⟨rfl, rfl⟩ : st.heap = h' ∧ st.min ++ st.ins = res := by
      have := hres.symm.trans hrun'
      simpa using this
    by_contra hno
    rcases hbad hno with ⟨r, hr, hne⟩ | ⟨x, ⟨o, ho, hox⟩, hx⟩
    · exact hne (hkept' r hr)
    · have hlt : x < 256 ^ n := by
        have hb := val_lt (read h o.stop)
        rw [(hp.plain _ (read_mem (hp.laidOuts.refs o ho).2)).1] at hb
        exact lt_of_le_of_lt hox.2 hb
      obtain ⟨a, hl, rfl⟩ := exists_val hlt
      have := ((hcov' a).mp ((hspan a).mpr ⟨hl, hx⟩)).2
      exact this ((hcov hp.laidOuts a).mpr ⟨hl, o, ho, hox⟩)
  · intro hall
    obtain ⟨hkept, hval, hcover⟩ := hgood hall
    refine ⟨st.heap, st.min ++ st.ins, hres, fun a => ?_, hval, hkept⟩
    rw [hspan, hcover, hcov hp.laidIns, hcov hp.laidOuts]
    exact ⟨fun hx => ⟨⟨hx.1, hx.2.1⟩, fun ho => hx.2.2 ho.2⟩,
      fun hx => ⟨hx.1.1, hx.1.2, fun ho => hx.2 ⟨hx.1.1, ho⟩⟩⟩

end Dni
