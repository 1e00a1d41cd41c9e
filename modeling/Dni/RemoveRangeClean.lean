import Dni.RemoveRangeSteps

namespace Dni

def Range.Spans (h : Heap) (r : Range Nat) (x : Nat) : Prop := value h r.start ≤ x ∧ x ≤ value h r.stop

/-- An order of ranges with a gap between any two. -/
def Apart (h : Heap) (a b : Range Nat) : Prop := value h a.stop + 1 < value h b.start

namespace Sweep

/-- Both lists are in order, what is left of `outs` lies in `O`, and the first `base` arrays, those
of the caller, are the ones of `h₀`. -/
structure Lined (n base : Nat) (h₀ : Heap) (O : Nat → Prop) (st : Sweep) : Prop where
  sound : st.Sound n
  ins : ∀ i ∈ st.ins, value st.heap i.start ≤ value st.heap i.stop
  insOrder : st.ins.Pairwise (Apart st.heap)
  outs : ∀ o ∈ st.outs, value st.heap o.start ≤ value st.heap o.stop
  outsOrder : st.outs.Pairwise (Apart st.heap)
  held : ∀ o ∈ st.outs, o.start < base
  outsIn : ∀ o ∈ st.outs, ∀ x, o.Spans st.heap x → O x
  kept : ∀ r < base, read st.heap r = read h₀ r

/-- So far the result is right: nothing was spoilt, and result and rest make up the difference. -/
structure Clean (n base : Nat) (h₀ : Heap) (I O : Nat → Prop) (st : Sweep) : Prop
    extends Lined n base h₀ O st where
  min : ∀ r ∈ st.min, value st.heap r.start ≤ value st.heap r.stop
  before : ∀ r ∈ st.min, ∀ o ∈ st.outs, value st.heap r.stop < value st.heap o.start
  covers : ∀ x, (∃ r ∈ st.min, r.Spans st.heap x) ∨
    ((∃ i ∈ st.ins, i.Spans st.heap x) ∧ ¬ ∃ o ∈ st.outs, o.Spans st.heap x) ↔ I x ∧ ¬ O x

def Meets (h : Heap) (i o : Range Nat) : Prop :=
  value h i.start ≤ value h o.stop ∧ value h o.start ≤ value h i.stop

/-- A removal covers the range, or it cuts off its start and owns the array of its end, which does
not carry. -/
def Fits (base : Nat) (h : Heap) (i o : Range Nat) : Prop :=
  value h o.start ≤ value h i.start ∧ value h i.stop ≤ value h o.stop ∨
    value h o.start < value h i.start ∧ value h o.stop < value h i.stop ∧ base ≤ o.stop ∧
      value h o.stop % 256 ≠ 255

def AllFit (base : Nat) (st : Sweep) : Prop :=
  ∀ i ∈ st.ins, ∀ o ∈ st.outs, Meets st.heap i o → Fits base st.heap i o

section Head

variable {n base : Nat} {h₀ : Heap} {I O : Nat → Prop} {h : Heap} {i o : Range Nat}
  {ins outs min : List (Range Nat)}

/-- What the order says about the two heads and the ranges behind them. -/
theorem Lined.heads (hl : Lined n base h₀ O ⟨h, i :: ins, o :: outs, min⟩) :
    value h i.start ≤ value h i.stop ∧ value h o.start ≤ value h o.stop ∧
      (∀ x ∈ ins, value h i.stop + 1 < value h x.start ∧ value h x.start ≤ value h x.stop) ∧
      ∀ x ∈ outs, value h o.stop + 1 < value h x.start ∧ value h x.start ≤ value h x.stop :=
  ⟨hl.ins i (by simp), hl.outs o (by simp),
    fun x hx => ⟨(List.pairwise_cons.mp hl.insOrder).1 x hx, hl.ins x (by simp [hx])⟩,
    fun x hx => ⟨(List.pairwise_cons.mp hl.outsOrder).1 x hx, hl.outs x (by simp [hx])⟩⟩

theorem Lined.dropOut (hl : Lined n base h₀ O ⟨h, i :: ins, o :: outs, min⟩) :
    Lined n base h₀ O ⟨h, i :: ins, outs, min⟩ :=
  ⟨⟨hl.sound.plain, hl.sound.ins, fun x hx => hl.sound.outs x (List.mem_cons_of_mem _ hx)⟩, hl.ins,
    hl.insOrder, fun x hx => hl.outs x (List.mem_cons_of_mem _ hx), hl.outsOrder.of_cons,
    fun x hx => hl.held x (List.mem_cons_of_mem _ hx),
    fun x hx => hl.outsIn x (List.mem_cons_of_mem _ hx), hl.kept⟩

theorem Lined.dropIn (hl : Lined n base h₀ O ⟨h, i :: ins, outs, min⟩) (min' : List (Range Nat)) :
    Lined n base h₀ O ⟨h, ins, outs, min'⟩ :=
  ⟨⟨hl.sound.plain, fun x hx => hl.sound.ins x (List.mem_cons_of_mem _ hx), hl.sound.outs⟩,
    fun x hx => hl.ins x (List.mem_cons_of_mem _ hx), hl.insOrder.of_cons, hl.outs, hl.outsOrder,
    hl.held, hl.outsIn, hl.kept⟩

/-- The arrays of the ranges behind the heads keep their values when the end of `o` is changed. -/
theorem Lined.trim_values (hl : Lined n base h₀ O ⟨h, i :: ins, o :: outs, min⟩)
    (hr : value h o.stop < value h i.stop) (d : UInt8) :
    value (bump d h o.stop) i.stop = value h i.stop ∧
      (∀ x ∈ ins, value (bump d h o.stop) x.start = value h x.start ∧
        value (bump d h o.stop) x.stop = value h x.stop) ∧
      ∀ x ∈ outs, value (bump d h o.stop) x.start = value h x.start ∧
        value (bump d h o.stop) x.stop = value h x.stop := by
  obtain ⟨_, _, hins, houts⟩ := hl.heads
  refine ⟨value_bump_ne (by omega), fun x hx => ?_, fun x hx => ?_⟩
  · have := hins x hx
    exact ⟨value_bump_ne (by omega), value_bump_ne (by omega)⟩
  · have := houts x hx
    exact ⟨value_bump_ne (by omega), value_bump_ne (by omega)⟩

/-- Cutting off a start with an array that is not the caller's keeps the lists in order. -/
theorem Lined.trimStart (hl : Lined n base h₀ O ⟨h, i :: ins, o :: outs, min⟩)
    (hr : value h o.stop < value h i.stop) (hown : base ≤ o.stop)
    (hle : value (bump 1 h o.stop) o.stop ≤ value h i.stop) :
    Lined n base h₀ O ⟨bump 1 h o.stop, ⟨o.stop, i.stop⟩ :: ins, outs, min⟩ := by
  obtain ⟨_, _, hins, houts⟩ := hl.heads
  obtain ⟨hstop, hvi, hvo⟩ := hl.trim_values hr 1
  refine ⟨?_, fun x hx => ?_, ?_, fun x hx => ?_, ?_, fun x hx => hl.held x (List.mem_cons_of_mem _ hx),
    fun x hx y hy => ?_, fun r hr => ?_⟩
  · refine ⟨hl.sound.plain.bump (hl.sound.outs o (by simp)).2 1, fun x hx => ?_, fun x hx => ?_⟩
    · simp only [length_bump]
      rcases List.mem_cons.mp hx with rfl | hx
      · exact ⟨(hl.sound.outs o (by simp)).2, (hl.sound.ins i (by simp)).2⟩
      · exact hl.sound.ins x (List.mem_cons_of_mem _ hx)
    · simp only [length_bump]
      exact hl.sound.outs x (List.mem_cons_of_mem _ hx)
  · rcases List.mem_cons.mp hx with rfl | hx
    · simpa only [hstop] using hle
    · simp only [(hvi x hx).1, (hvi x hx).2]
      exact (hins x hx).2
  · refine List.pairwise_cons.mpr ⟨fun x hx => ?_, ?_⟩
    · simp only [Apart, hstop, (hvi x hx).1]
      exact (hins x hx).1
    · refine hl.insOrder.of_cons.imp_of_mem fun {a b} ha hb hab => ?_
      simp only [Apart, (hvi a ha).2, (hvi b hb).1]
      exact hab
  · simp only [(hvo x hx).1, (hvo x hx).2]
    exact (houts x hx).2
  · refine hl.outsOrder.of_cons.imp_of_mem fun {a b} ha hb hab => ?_
    simp only [Apart, (hvo a ha).2, (hvo b hb).1]
    exact hab
  · refine hl.outsIn x (List.mem_cons_of_mem _ hx) y ?_
    simpa only [Range.Spans, (hvo x hx).1, (hvo x hx).2] using hy
  · rw [← hl.kept r hr]
    exact read_bump_ne (by omega)

/-- A removal that ends before every range that is left meets none of them. -/
theorem Clean.dropOut (hc : Clean n base h₀ I O ⟨h, i :: ins, o :: outs, min⟩)
    (hlt : value h o.stop < value h i.start) :
    Clean n base h₀ I O ⟨h, i :: ins, outs, min⟩ ∧
      (AllFit base ⟨h, i :: ins, o :: outs, min⟩ ↔ AllFit base ⟨h, i :: ins, outs, min⟩) := by
  obtain ⟨hi, _, hins, _⟩ := hc.heads
  have hapart : ∀ x ∈ i :: ins, value h o.stop < value h x.start := by
    intro x hx
    rcases List.mem_cons.mp hx with rfl | hx
    · exact hlt
    · have := hins x hx
      omega
  refine ⟨⟨hc.toLined.dropOut, hc.min, fun r hr x hx => hc.before r hr x (List.mem_cons_of_mem _ hx),
    fun x => ?_⟩, ?_⟩
  · rw [← hc.covers x]
    refine or_congr_right (and_congr_right fun ⟨y, hy, hyx⟩ => not_congr ?_)
    simp only [List.exists_mem_cons_iff]
    refine (or_iff_right fun ho => ?_).symm
    have h1 := hapart y hy
    have h2 := hyx.1
    have h3 := ho.2
    simp only at h2 h3
    omega
  · constructor
    · exact fun hall x hx y hy => hall x hx y (List.mem_cons_of_mem _ hy)
    · intro hall x hx y hy hm
      rcases List.mem_cons.mp hy with rfl | hy
      · have h1 := hapart x hx
        have h2 := hm.1
        simp only at h2
        omega
      · exact hall x hx y hy hm

/-- A range that ends before every removal that is left goes to the result. -/
theorem Clean.keepIn (hc : Clean n base h₀ I O ⟨h, i :: ins, o :: outs, min⟩)
    (hlt : value h i.stop < value h o.start) :
    Clean n base h₀ I O ⟨h, ins, o :: outs, min ++ [i]⟩ ∧
      (AllFit base ⟨h, i :: ins, o :: outs, min⟩ ↔ AllFit base ⟨h, ins, o :: outs, min ++ [i]⟩) := by
  obtain ⟨hi, ho, _, houts⟩ := hc.heads
  have hapart : ∀ x ∈ o :: outs, value h i.stop < value h x.start := by
    intro x hx
    rcases List.mem_cons.mp hx with rfl | hx
    · exact hlt
    · have := houts x hx
      omega
  refine ⟨⟨hc.toLined.dropIn _, fun r hr => ?_, fun r hr x hx => ?_, fun x => ?_⟩, ?_⟩
  · rcases List.mem_append.mp hr with hr | hr
    · exact hc.min r hr
    · rw [List.mem_singleton.mp hr]
      exact hi
  · rcases List.mem_append.mp hr with hr | hr
    · exact hc.before r hr x hx
    · rw [List.mem_singleton.mp hr]
      exact hapart x hx
  · rw [← hc.covers x]
    simp only [List.mem_append, List.mem_singleton, List.exists_mem_cons_iff, or_and_right, exists_or,
      exists_eq_left, or_assoc]
    refine or_congr_right ?_
    by_cases hix : i.Spans h x
    · simp only [hix, true_or, true_and, true_iff]
      left
      rintro (hox | ⟨y, hy, hyx⟩)
      · have h1 := hix.2
        have h2 := hox.1
        omega
      · have h1 := hix.2
        have h2 := hyx.1
        have h3 := hapart y (by simp [hy])
        omega
    · simp only [hix, false_or, false_and]
  · constructor
    · exact fun hall x hx y hy => hall x (List.mem_cons_of_mem _ hx) y hy
    · intro hall x hx y hy hm
      rcases List.mem_cons.mp hx with rfl | hx
      · have h1 := hapart y hy
        have h2 := hm.2
        simp only at h2
        omega
      · exact hall x hx y hy hm

/-- A range that lies within the removal goes away; the removals behind meet no part of it. -/
theorem Clean.dropIn (hc : Clean n base h₀ I O ⟨h, i :: ins, o :: outs, min⟩)
    (hl : value h o.start ≤ value h i.start) (hr : value h i.stop ≤ value h o.stop) :
    Clean n base h₀ I O ⟨h, ins, o :: outs, min⟩ ∧
      (AllFit base ⟨h, i :: ins, o :: outs, min⟩ ↔ AllFit base ⟨h, ins, o :: outs, min⟩) := by
  obtain ⟨hi, ho, _, houts⟩ := hc.heads
  refine ⟨⟨hc.toLined.dropIn _, hc.min, hc.before, fun x => ?_⟩, ?_⟩
  · rw [← hc.covers x]
    refine or_congr_right ?_
    simp only [List.exists_mem_cons_iff]
    constructor
    · intro h
      rcases h with ⟨hx, hno⟩
      exact ⟨Or.inr hx, hno⟩
    · rintro ⟨hix | hx, hno⟩
      · exact (hno (Or.inl ⟨hl.trans hix.1, hix.2.trans hr⟩)).elim
      · exact ⟨hx, hno⟩
  · constructor
    · exact fun hall x hx y hy => hall x (List.mem_cons_of_mem _ hx) y hy
    · intro hall x hx y hy hm
      rcases List.mem_cons.mp hx with rfl | hx
      · rcases List.mem_cons.mp hy with rfl | hy
        · exact Or.inl ⟨hl, hr⟩
        · have h1 := houts y hy
          have h2 := hm.2
          simp only at h2
          omega
      · exact hall x hx y hy hm

/-- Two heaps that agree on the values of a range's end points. -/
def SameAt (h h' : Heap) (r : Range Nat) : Prop :=
  value h' r.start = value h r.start ∧ value h' r.stop = value h r.stop

theorem SameAt.spans {h h' : Heap} {r : Range Nat} (hs : SameAt h h' r) (x : Nat) :
    r.Spans h' x ↔ r.Spans h x := by
  rw [Range.Spans, hs.1, hs.2, Range.Spans]

theorem exists_spans_congr {h h' : Heap} {l : List (Range Nat)} (hs : ∀ r ∈ l, SameAt h h' r) (x : Nat) :
    (∃ r ∈ l, r.Spans h' x) ↔ ∃ r ∈ l, r.Spans h x :=
  exists_congr fun r => and_congr_right fun hr => (hs r hr).spans x

theorem fit_congr {h h' : Heap} {i o : Range Nat} (hi : SameAt h h' i) (ho : SameAt h h' o) :
    (Meets h' i o → Fits base h' i o) ↔ (Meets h i o → Fits base h i o) := by
  rw [Meets, Fits, hi.1, hi.2, ho.1, ho.2, Meets, Fits]

/-- Cutting off the start is right where the array is not the caller's and does not carry. -/
theorem Clean.trimStart (hc : Clean n base h₀ I O ⟨h, i :: ins, o :: outs, min⟩)
    (hl : value h o.start < value h i.start) (hr : value h o.stop < value h i.stop)
    (hmeet : value h i.start ≤ value h o.stop) (hown : base ≤ o.stop)
    (hbyte : value h o.stop % 256 ≠ 255) :
    Clean n base h₀ I O ⟨bump 1 h o.stop, ⟨o.stop, i.stop⟩ :: ins, outs, min⟩ := by
  obtain ⟨hi, ho, hins, houts⟩ := hc.heads
  obtain ⟨hstop, hvi, hvo⟩ := hc.toLined.trim_values hr 1
  have hnew : value (bump 1 h o.stop) o.stop = value h o.stop + 1 := by
    have := value_succ hc.sound.plain (hc.sound.outs o (by simp)).2
    rwa [if_neg hbyte] at this
  have hvm : ∀ r ∈ min, SameAt h (bump 1 h o.stop) r := by
    intro r hrm
    have h1 := hc.min r hrm
    have h2 := hc.before r hrm o (by simp)
    simp only at h1 h2
    exact ⟨value_bump_ne (by omega), value_bump_ne (by omega)⟩
  refine ⟨hc.toLined.trimStart hr hown (by omega), fun r hrm => ?_, fun r hrm x hx => ?_, fun x => ?_⟩
  · simp only [(hvm r hrm).1, (hvm r hrm).2]
    exact hc.min r hrm
  · simp only [(hvm r hrm).2, (hvo x hx).1]
    exact hc.before r hrm x (List.mem_cons_of_mem _ hx)
  · rw [← hc.covers x]
    have hhead : (⟨o.stop, i.stop⟩ : Range Nat).Spans (bump 1 h o.stop) x ↔
        i.Spans h x ∧ ¬ o.Spans h x := by
      simp only [Range.Spans, hnew, hstop]
      omega
    have htail : (∃ r ∈ ins, r.Spans h x) → ¬ o.Spans h x := by
      rintro ⟨r, hr', hrx⟩ hox
      have h1 := hins r hr'
      have h2 := hrx.1
      have h3 := hox.2
      omega
    simp only [List.exists_mem_cons_iff, exists_spans_congr hvm, exists_spans_congr hvi,
      exists_spans_congr hvo, hhead, not_or]
    refine or_congr_right ⟨?_, ?_⟩
    · rintro ⟨⟨hx, hox⟩ | hx, hno⟩
      · exact ⟨Or.inl hx, hox, hno⟩
      · exact ⟨Or.inr hx, htail hx, hno⟩
    · rintro ⟨hx | hx, hox, hno⟩
      · exact ⟨Or.inl ⟨hx, hox⟩, hno⟩
      · exact ⟨Or.inr hx, hno⟩

/-- The removals behind the one that cut off the start neither cover the rest of the range nor cut
off its start again. -/
theorem Lined.trimStart_allFit (hl' : Lined n base h₀ O ⟨h, i :: ins, o :: outs, min⟩)
    (hl : value h o.start < value h i.start) (hr : value h o.stop < value h i.stop)
    (hmeet : value h i.start ≤ value h o.stop) (hown : base ≤ o.stop)
    (hbyte : value h o.stop % 256 ≠ 255) :
    AllFit base ⟨h, i :: ins, o :: outs, min⟩ ↔
      AllFit base ⟨bump 1 h o.stop, ⟨o.stop, i.stop⟩ :: ins, outs, min⟩ := by
  obtain ⟨_, _, hins, houts⟩ := hl'.heads
  obtain ⟨hstop, hvi, hvo⟩ := hl'.trim_values hr 1
  have hnew : value (bump 1 h o.stop) o.stop = value h o.stop + 1 := by
    have := value_succ hl'.sound.plain (hl'.sound.outs o (by simp)).2
    rwa [if_neg hbyte] at this
  have hfit : Fits base h i o := Or.inr ⟨hl, hr, hown, hbyte⟩
  have hnot : ∀ x ∈ ins, ¬ Meets h x o := fun x hx hm => by
    have h1 := hins x hx
    have h2 := hm.1
    omega
  have hhead : ∀ y ∈ outs, (Meets (bump 1 h o.stop) ⟨o.stop, i.stop⟩ y →
      Fits base (bump 1 h o.stop) ⟨o.stop, i.stop⟩ y) ↔ (Meets h i y → Fits base h i y) := by
    intro y hy
    have h1 := houts y hy
    simp only [Meets, Fits, hstop, hnew, (hvo y hy).1, (hvo y hy).2]
    omega
  simp only [AllFit, List.forall_mem_cons]
  constructor
  · intro h
    rcases h with ⟨⟨_, hio⟩, hall⟩
    exact ⟨fun y hy => (hhead y hy).mpr (hio y hy),
      fun x hx y hy => (fit_congr (hvi x hx) (hvo y hy)).mpr ((hall x hx).2 y hy)⟩
  · intro h
    rcases h with ⟨hio, hall⟩
    exact ⟨⟨fun _ => hfit, fun y hy => (hhead y hy).mp (hio y hy)⟩,
      fun x hx => ⟨fun hm => (hnot x hx hm).elim,
        fun y hy => (fit_congr (hvi x hx) (hvo y hy)).mp (hall x hx y hy)⟩⟩

end Head

end Sweep

end Dni
