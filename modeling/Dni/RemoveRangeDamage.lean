import Dni.RemoveRangeClean

namespace Dni

namespace Sweep

/-- The array `s` of the caller has changed, and the rest of the sweep cannot change it back: no
removal holds it any more, or the only one that does starts too low to be decremented again, or at
a borrow it can be decremented just once more. -/
inductive Lost (h₀ : Heap) (s : Nat) : Sweep → Prop
  | gone {st} (hne : value st.heap s ≠ value h₀ s) (hno : ∀ o ∈ st.outs, o.start ≠ s ∧ o.stop ≠ s) :
    Lost h₀ s st
  | low {h ins o outs min} (hs : o.start = s) (hstop : o.stop ≠ s)
    (hno : ∀ x ∈ outs, x.start ≠ s ∧ x.stop ≠ s) (hne : value h s ≠ value h₀ s)
    (hins : ∀ i ∈ ins, value h s < value h i.start) : Lost h₀ s ⟨h, ins, o :: outs, min⟩
  | high {h ins o outs min} (hs : o.start = s) (hstop : o.stop ≠ s)
    (hno : ∀ x ∈ outs, x.start ≠ s ∧ x.stop ≠ s) (hval : value h s = value h₀ s + 255)
    (hbyte : value h s % 256 = 255) (hins : ∀ i ∈ ins, i.start ≠ s ∧ i.stop ≠ s)
    (hord : ins.Pairwise (Apart h)) : Lost h₀ s ⟨h, ins, o :: outs, min⟩

theorem value_bump_of_ne {d : UInt8} {h : Heap} {r s : Nat} (hne : s ≠ r) :
    value (bump d h r) s = value h s := by
  rw [value, read_bump_ne hne, value]

theorem Lost.ne {h₀ : Heap} {s : Nat} {st : Sweep} (h : Lost h₀ s st) : value st.heap s ≠ value h₀ s := by
  cases h with
  | gone hne => exact hne
  | low _ _ _ hne => exact hne
  | high _ _ _ hval => simp only; omega

theorem Lost.step_gone {h₀ : Heap} {s : Nat} {st st' : Sweep} (hne : value st.heap s ≠ value h₀ s)
    (hno : ∀ o ∈ st.outs, o.start ≠ s ∧ o.stop ≠ s) (hstep : st.Step st') : Lost h₀ s st' := by
  cases hstep with
  | dropOut => exact .gone hne fun x hx => hno x (List.mem_cons_of_mem _ hx)
  | keepIn => exact .gone hne hno
  | dropIn => exact .gone hne hno
  | @split h i ins o outs min =>
    have ho := hno o (by simp)
    refine .gone ?_ fun x hx => hno x (List.mem_cons_of_mem _ hx)
    simpa only [value_bump_of_ne ho.2.symm, value_bump_of_ne ho.1.symm] using hne
  | @trimStart h i ins o outs min =>
    have ho := hno o (by simp)
    refine .gone ?_ fun x hx => hno x (List.mem_cons_of_mem _ hx)
    simpa only [value_bump_of_ne ho.2.symm] using hne
  | @trimEnd h i ins o outs min =>
    have ho := hno o (by simp)
    refine .gone ?_ hno
    simpa only [value_bump_of_ne ho.1.symm] using hne

/-- A removal that starts below everything left is only dropped or consumed. -/
theorem Lost.step_low {h₀ h : Heap} {s : Nat} {ins outs min : List (Range Nat)} {o : Range Nat}
    {st' : Sweep} (hs : o.start = s) (hstop : o.stop ≠ s) (hno : ∀ x ∈ outs, x.start ≠ s ∧ x.stop ≠ s)
    (hne : value h s ≠ value h₀ s) (hins : ∀ i ∈ ins, value h s < value h i.start)
    (hstep : Step ⟨h, ins, o :: outs, min⟩ st') : Lost h₀ s st' := by
  subst hs
  cases hstep with
  | dropOut => exact .gone hne hno
  | keepIn => exact .low rfl hstop hno hne fun x hx => hins x (List.mem_cons_of_mem _ hx)
  | dropIn => exact .low rfl hstop hno hne fun x hx => hins x (List.mem_cons_of_mem _ hx)
  | @split _ i ins _ _ _ hl =>
    have := hins i (by simp)
    omega
  | @trimStart _ i ins =>
    refine .gone ?_ hno
    simpa only [value_bump_of_ne hstop.symm] using hne
  | @trimEnd _ i ins _ _ _ hl =>
    have := hins i (by simp)
    omega

theorem Lost.step_high {n : Nat} {h₀ h : Heap} {s : Nat} {ins outs min : List (Range Nat)}
    {o : Range Nat} {st' : Sweep} (hsound : Sound n ⟨h, ins, o :: outs, min⟩) (hs : o.start = s)
    (hstop : o.stop ≠ s) (hno : ∀ x ∈ outs, x.start ≠ s ∧ x.stop ≠ s)
    (hval : value h s = value h₀ s + 255) (hbyte : value h s % 256 = 255)
    (hins : ∀ i ∈ ins, i.start ≠ s ∧ i.stop ≠ s) (hord : ins.Pairwise (Apart h))
    (hstep : Step ⟨h, ins, o :: outs, min⟩ st') : Lost h₀ s st' := by
  subst hs
  have hdec := value_pred hsound.plain (hsound.outs o (by simp)).1
  simp only at hdec
  rw [if_neg (by omega)] at hdec
  cases hstep with
  | dropOut => exact .gone (by simp only; omega) hno
  | keepIn => exact .high rfl hstop hno hval hbyte (fun x hx => hins x (List.mem_cons_of_mem _ hx)) hord.of_cons
  | dropIn => exact .high rfl hstop hno hval hbyte (fun x hx => hins x (List.mem_cons_of_mem _ hx)) hord.of_cons
  | @split _ i ins =>
    refine .gone ?_ hno
    simp only [value_bump_of_ne hstop.symm]
    omega
  | @trimStart _ i ins =>
    refine .gone ?_ hno
    simp only [value_bump_of_ne hstop.symm]
    omega
  | @trimEnd _ i ins _ _ _ hl hmeet hr =>
    refine .low rfl hstop hno (by omega) fun x hx => ?_
    have h1 := (List.pairwise_cons.mp hord).1 x hx
    rw [value_bump_of_ne (hins x (by simp [hx])).1]
    unfold Apart at h1
    omega

theorem Lost.step {n : Nat} {h₀ : Heap} {s : Nat} {st st' : Sweep} (hl : Lost h₀ s st)
    (hsound : st.Sound n) (hstep : st.Step st') : Lost h₀ s st' := by
  cases hl with
  | gone hne hno => exact step_gone hne hno hstep
  | low hs hstop hno hne hins => exact step_low hs hstop hno hne hins hstep
  | high hs hstop hno hval hbyte hins hord => exact step_high hsound hs hstop hno hval hbyte hins hord hstep

/-- The result holds a range that covers an address of `O`, and nothing left can change it. -/
def Wrong (O : Nat → Prop) (st : Sweep) : Prop :=
  ∃ a, O a ∧ ∃ r ∈ st.min, r.Spans st.heap a ∧ ∀ o ∈ st.outs,
    (r.start ≠ o.start ∧ r.stop ≠ o.start) ∧ r.start ≠ o.stop ∧ r.stop ≠ o.stop

theorem Wrong.step {O : Nat → Prop} {st st' : Sweep} (hw : Wrong O st) (hstep : st.Step st') :
    Wrong O st' := by
  obtain ⟨a, ha, r, hr, hs, hno⟩ := hw
  cases hstep with
  | dropOut => exact ⟨a, ha, r, hr, hs, fun x hx => hno x (List.mem_cons_of_mem _ hx)⟩
  | keepIn => exact ⟨a, ha, r, List.mem_append_left _ hr, hs, hno⟩
  | dropIn => exact ⟨a, ha, r, hr, hs, hno⟩
  | @split h i ins o outs min =>
    have ho := hno o (by simp)
    refine ⟨a, ha, r, List.mem_append_left _ hr, ?_, fun x hx => hno x (List.mem_cons_of_mem _ hx)⟩
    simpa only [Range.Spans, value_bump_of_ne ho.2.1, value_bump_of_ne ho.2.2, value_bump_of_ne ho.1.1,
      value_bump_of_ne ho.1.2] using hs
  | @trimStart h i ins o outs min =>
    have ho := hno o (by simp)
    refine ⟨a, ha, r, hr, ?_, fun x hx => hno x (List.mem_cons_of_mem _ hx)⟩
    simpa only [Range.Spans, value_bump_of_ne ho.2.1, value_bump_of_ne ho.2.2] using hs
  | @trimEnd h i ins o outs min =>
    have ho := hno o (by simp)
    refine ⟨a, ha, r, List.mem_append_left _ hr, ?_, hno⟩
    simpa only [Range.Spans, value_bump_of_ne ho.1.1, value_bump_of_ne ho.1.2] using hs

/-- The first range left covers an address of `O` below everything left of `outs`. -/
def Tainted (n base : Nat) (h₀ : Heap) (O : Nat → Prop) (st : Sweep) : Prop :=
  Lined n base h₀ O st ∧ ∃ i ins a, st.ins = i :: ins ∧ O a ∧ value st.heap i.start ≤ a ∧
    a < value st.heap i.stop ∧ ∀ o ∈ st.outs, a < value st.heap o.start ∧ i.start ≠ o.start ∧ i.start ≠ o.stop

/-- The sweep can no longer end well. -/
inductive Astray (n base : Nat) (h₀ : Heap) (O : Nat → Prop) (st : Sweep) : Prop
  | lost {s} (hs : s < base) (h : Lost h₀ s st)
  | wrong (h : Wrong O st)
  | tainted (h : Tainted n base h₀ O st)

section Head

variable {n base : Nat} {h₀ : Heap} {O : Nat → Prop} {h : Heap} {i o : Range Nat}
  {ins outs min : List (Range Nat)}

theorem Lined.not_behind (hl : Lined n base h₀ O ⟨h, i :: ins, o :: outs, min⟩) {r : Nat}
    (hr : value h r ≤ value h o.stop) : ∀ x ∈ outs, r ≠ x.start ∧ r ≠ x.stop := by
  intro x hx
  have := hl.heads.2.2.2 x hx
  constructor
  · rintro rfl
    omega
  · rintro rfl
    omega

theorem Lined.value_held (hl : Lined n base h₀ O ⟨h, i :: ins, o :: outs, min⟩) {s : Nat}
    (hs : s < base) : value h s = value h₀ s := by
  rw [value, hl.kept s hs, value]

/-- Cutting a piece out of a range changes the caller's array, or keeps an address that goes. -/
theorem Lined.split_astray (hl : Lined n base h₀ O ⟨h, i :: ins, o :: outs, min⟩)
    (hle : value h i.start ≤ value h o.start) :
    Astray n base h₀ O
      ⟨bump 1 (bump 255 h o.start) o.stop, ⟨o.stop, i.stop⟩ :: ins, outs, min ++ [⟨i.start, o.start⟩]⟩ := by
  obtain ⟨_, ho, _, _⟩ := hl.heads
  have hbound := (hl.sound.outs o (by simp)).1
  have hheld := hl.held o (by simp)
  have hrest := hl.not_behind ho
  by_cases heq : o.start = o.stop
  · refine .wrong ⟨value h o.start, hl.outsIn o (by simp) _ ⟨le_rfl, ho⟩, ⟨i.start, o.start⟩, by simp, ?_, ?_⟩
    · simp only [← heq, bump_bump hl.sound.plain hbound]
      exact ⟨hle, le_rfl⟩
    · intro x hx
      have h1 := hrest x hx
      have h2 := hl.not_behind (r := i.start) (by omega) x hx
      exact ⟨⟨h2.1, h1.1⟩, h2.2, h1.2⟩
  · refine .lost hheld (.gone ?_ fun x hx => ⟨(hrest x hx).1.symm, (hrest x hx).2.symm⟩)
    have hdec := value_pred hl.sound.plain hbound
    simp only [value_bump_of_ne heq] at hdec ⊢
    rw [← hl.value_held hheld]
    split at hdec <;> omega

/-- Cutting off an end changes the caller's array. -/
theorem Lined.trimEnd_astray (hl : Lined n base h₀ O ⟨h, i :: ins, o :: outs, min⟩)
    (hmeet : value h o.start ≤ value h i.stop) (hr : value h i.stop < value h o.stop) :
    Astray n base h₀ O ⟨bump 255 h o.start, ins, o :: outs, min ++ [⟨i.start, o.start⟩]⟩ := by
  obtain ⟨_, ho, hins, _⟩ := hl.heads
  have hheld := hl.held o (by simp)
  have hvh := hl.value_held hheld
  have hrest := hl.not_behind ho
  have hdec := value_pred hl.sound.plain (hl.sound.outs o (by simp)).1
  have hne : o.stop ≠ o.start := by
    intro heq
    rw [heq] at hr
    omega
  have hvi : ∀ x ∈ ins, SameAt h (bump 255 h o.start) x := fun x hx => by
    have := hins x hx
    exact ⟨value_bump_ne (by omega), value_bump_ne (by omega)⟩
  refine .lost hheld ?_
  simp only at hdec
  split at hdec
  next hz =>
    refine .high rfl hne (fun x hx => ⟨(hrest x hx).1.symm, (hrest x hx).2.symm⟩) (by omega) (by omega)
      (fun x hx => ?_) (hl.insOrder.of_cons.imp_of_mem fun {a b} ha hb hab => ?_)
    · have := hins x hx
      constructor
      · intro heq
        rw [heq] at this
        omega
      · intro heq
        rw [heq] at this
        omega
    · rw [Apart, (hvi a ha).2, (hvi b hb).1]
      exact hab
  next hz =>
    refine .low rfl hne (fun x hx => ⟨(hrest x hx).1.symm, (hrest x hx).2.symm⟩) (by omega) fun x hx => ?_
    rw [(hvi x hx).1]
    have := hins x hx
    omega

/-- Cutting off a start changes the caller's array or, where its own carries, moves it down. -/
theorem Lined.trimStart_astray (hl : Lined n base h₀ O ⟨h, i :: ins, o :: outs, min⟩)
    (hr : value h o.stop < value h i.stop) (hbad : o.stop < base ∨ value h o.stop % 256 = 255) :
    Astray n base h₀ O ⟨bump 1 h o.stop, ⟨o.stop, i.stop⟩ :: ins, outs, min⟩ := by
  obtain ⟨_, ho, _, houts⟩ := hl.heads
  have hrest := hl.not_behind (r := o.stop) le_rfl
  have hinc := value_succ hl.sound.plain (hl.sound.outs o (by simp)).2
  simp only at hinc
  by_cases hheld : o.stop < base
  · refine .lost hheld (.gone ?_ fun x hx => ⟨(hrest x hx).1.symm, (hrest x hx).2.symm⟩)
    simp only
    rw [← hl.value_held hheld]
    split at hinc <;> omega
  · have hbyte := hbad.resolve_left hheld
    rw [if_pos hbyte] at hinc
    obtain ⟨hstop, _, hvo⟩ := hl.trim_values hr 1
    refine .tainted ⟨hl.trimStart hr (by omega) (by omega), ⟨o.stop, i.stop⟩, ins, value h o.stop, rfl,
      hl.outsIn o (by simp) _ ⟨ho, le_rfl⟩, by simp only; omega, by simp only [hstop]; exact hr, ?_⟩
    intro x hx
    have := houts x hx
    exact ⟨by simp only [(hvo x hx).1]; omega, hrest x hx⟩

end Head

theorem Tainted.step {n base : Nat} {h₀ : Heap} {O : Nat → Prop} {st st' : Sweep}
    (ht : Tainted n base h₀ O st) (hstep : st.Step st') : Astray n base h₀ O st' := by
  obtain ⟨hl, x, xs, a, hins, ha, hlo, hhi, hout⟩ := ht
  cases hstep with
  | @dropOut h i ins o outs min hlt =>
    cases hins
    have h1 := hout o (by simp)
    have h2 := hl.heads
    simp only at hlo h1
    omega
  | @keepIn h i ins o outs min hlt =>
    cases hins
    refine .wrong ⟨a, ha, x, by simp, ⟨hlo, Nat.le_of_lt hhi⟩, fun y hy => ?_⟩
    have h1 := hout y hy
    have h2 : value h o.start ≤ value h y.start ∧ value h y.start ≤ value h y.stop := by
      rcases List.mem_cons.mp hy with rfl | hy
      · exact ⟨le_rfl, hl.heads.2.1⟩
      · have h3 := hl.heads
        have h4 := h3.2.2.2 y hy
        omega
    refine ⟨⟨h1.2.1, ?_⟩, h1.2.2, ?_⟩
    · intro heq
      rw [heq] at hlt
      omega
    · intro heq
      rw [heq] at hlt
      omega
  | @dropIn h i ins o outs min hle hr =>
    cases hins
    have h1 := hout o (by simp)
    simp only at hlo h1
    omega
  | @split h i ins o outs min hle =>
    cases hins
    exact hl.split_astray hle
  | @trimStart h i ins o outs min hlt =>
    cases hins
    have h1 := hout o (by simp)
    simp only at hlo h1
    omega
  | @trimEnd h i ins o outs min hlt hmeet hr =>
    cases hins
    exact hl.trimEnd_astray hmeet hr

theorem Astray.step {n base : Nat} {h₀ : Heap} {O : Nat → Prop} {st st' : Sweep}
    (ha : Astray n base h₀ O st) (hs : st.Sound n) (hstep : st.Step st') : Astray n base h₀ O st' := by
  cases ha with
  | lost hb hl => exact .lost hb (hl.step hs hstep)
  | wrong hw => exact .wrong (hw.step hstep)
  | tainted ht => exact ht.step hstep

/-- One step of a clean sweep stays clean and decides nothing, or it meets a pair that does not fit
and goes astray. -/
theorem Clean.step {n base : Nat} {h₀ : Heap} {I O : Nat → Prop} {st st' : Sweep}
    (hc : Clean n base h₀ I O st) (hstep : st.Step st') :
    Clean n base h₀ I O st' ∧ (AllFit base st ↔ AllFit base st') ∨
      ¬ AllFit base st ∧ Astray n base h₀ O st' := by
  cases hstep with
  | dropOut hlt => exact Or.inl (hc.dropOut hlt)
  | keepIn hlt => exact Or.inl (hc.keepIn hlt)
  | dropIn hl hr => exact Or.inl (hc.dropIn hl hr)
  | @split h i ins o outs min hl hr hmeet hno =>
    refine Or.inr ⟨fun hall => ?_, hc.toLined.split_astray hl⟩
    have := hall i (by simp) o (by simp) ⟨hl.trans (hc.heads.2.1), hmeet⟩
    simp only [Fits] at this
    omega
  | @trimStart h i ins o outs min hl hmeet hr =>
    by_cases hgood : base ≤ o.stop ∧ value h o.stop % 256 ≠ 255
    · exact Or.inl ⟨hc.trimStart hl hr hmeet hgood.1 hgood.2,
        hc.toLined.trimStart_allFit hl hr hmeet hgood.1 hgood.2⟩
    · refine Or.inr ⟨fun hall => ?_, hc.toLined.trimStart_astray hr (by omega)⟩
      have := hall i (by simp) o (by simp) ⟨hmeet, by have := hc.heads.1; simp only; omega⟩
      simp only [Fits] at this
      omega
  | @trimEnd h i ins o outs min hl hmeet hr =>
    refine Or.inr ⟨fun hall => ?_, hc.toLined.trimEnd_astray hmeet hr⟩
    have := hall i (by simp) o (by simp) ⟨by have := hc.heads.1; simp only; omega, hmeet⟩
    simp only [Fits] at this
    omega

theorem Clean.run {n base : Nat} {h₀ : Heap} {I O : Nat → Prop} {st st' : Sweep}
    (hc : Clean n base h₀ I O st) (hrun : Relation.ReflTransGen Step st st') :
    st'.Sound n ∧ (Clean n base h₀ I O st' ∧ (AllFit base st ↔ AllFit base st') ∨
      ¬ AllFit base st ∧ Astray n base h₀ O st') := by
  induction hrun with
  | refl => exact ⟨hc.sound, Or.inl ⟨hc, Iff.rfl⟩⟩
  | tail _ hstep ih =>
    obtain ⟨hs, ⟨hclean, hiff⟩ | ⟨hno, ha⟩⟩ := ih
    · refine ⟨hstep.sound hs, ?_⟩
      rcases hclean.step hstep with ⟨hc', hiff'⟩ | ⟨hno, ha⟩
      · exact Or.inl ⟨hc', hiff.trans hiff'⟩
      · exact Or.inr ⟨fun hall => hno (hiff.mp hall), ha⟩
    · exact ⟨hstep.sound hs, Or.inr ⟨hno, ha.step hs hstep⟩⟩

/-- How a sweep from a clean state ends: right if every pair fits, and otherwise with an array of the
caller changed or an address of `O` in the result. -/
theorem Clean.end_spec {n base : Nat} {h₀ : Heap} {I O : Nat → Prop} {st st' : Sweep}
    (hc : Clean n base h₀ I O st) (hrun : Relation.ReflTransGen Step st st')
    (hend : st'.ins = [] ∨ st'.outs = []) :
    (AllFit base st → (∀ r < base, read st'.heap r = read h₀ r) ∧
      (∀ r ∈ st'.min ++ st'.ins, value st'.heap r.start ≤ value st'.heap r.stop) ∧
      ∀ x, (∃ r ∈ st'.min ++ st'.ins, r.Spans st'.heap x) ↔ I x ∧ ¬ O x) ∧
    (¬ AllFit base st → (∃ r < base, read st'.heap r ≠ read h₀ r) ∨
      ∃ x, O x ∧ ∃ r ∈ st'.min ++ st'.ins, r.Spans st'.heap x) := by
  obtain ⟨_, ⟨hclean, hiff⟩ | ⟨hno, ha⟩⟩ := hc.run hrun
  · have hall : AllFit base st' := by
      intro i hi o ho
      rcases hend with he | he
      · simp [he] at hi
      · simp [he] at ho
    refine ⟨fun _ => ⟨hclean.kept, fun r hr => ?_, fun x => ?_⟩, fun hno => (hno (hiff.mpr hall)).elim⟩
    · rcases List.mem_append.mp hr with hr | hr
      · exact hclean.min r hr
      · exact hclean.ins r hr
    · rw [← hclean.covers x]
      simp only [List.mem_append, or_and_right, exists_or]
      refine or_congr_right ?_
      rcases hend with he | he <;> simp [he]
  · refine ⟨fun h => (hno h).elim, fun _ => ?_⟩
    cases ha with
    | @lost s hs hl => exact Or.inl ⟨s, hs, fun heq => hl.ne (by rw [value, heq, value])⟩
    | wrong hw =>
      obtain ⟨a, ha, r, hr, hsp, _⟩ := hw
      exact Or.inr ⟨a, ha, r, List.mem_append_left _ hr, hsp⟩
    | tainted ht =>
      obtain ⟨_, i, ins, a, hins, ha, hlo, hhi, _⟩ := ht
      exact Or.inr ⟨a, ha, i, by simp [hins], hlo, Nat.le_of_lt hhi⟩

end Sweep

end Dni
