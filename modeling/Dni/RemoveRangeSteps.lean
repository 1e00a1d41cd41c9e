import Dni.RemoveRange
import Mathlib.Logic.Relation

namespace Dni

open Bytes

/-- The number that the address behind a reference spells. -/
def value (h : Heap) (r : Nat) : Nat := val (read h r)

/-- Every array is an IPv4 address of `n` bytes. -/
def Plain (n : Nat) (h : Heap) : Prop := ∀ ip ∈ h, ip.length = n ∧ isIPv4 ip = true

def bumped (d : UInt8) (ip : IP) : IP := ip.dropLast ++ [ip.getLastD 0 + d]

def bump (d : UInt8) (h : Heap) (r : Nat) : Heap := h.set r (bumped d (read h r))

@[simp] theorem length_bump (d : UInt8) (h : Heap) (r : Nat) : (bump d h r).length = h.length := by
  simp [bump]

theorem read_mem {h : Heap} {r : Nat} (hr : r < h.length) : read h r ∈ h := by
  rw [read, List.getD_eq_getElem _ _ hr]
  exact List.getElem_mem hr

theorem read_bump_ne {d : UInt8} {h : Heap} {r s : Nat} (hne : s ≠ r) :
    read (bump d h r) s = read h s := by
  simp [read, bump, List.getD_eq_getElem?_getD, List.getElem?_set_ne hne.symm]

theorem read_bump_self {d : UInt8} {h : Heap} {r : Nat} (hr : r < h.length) :
    read (bump d h r) r = bumped d (read h r) := by
  simp [read, bump, List.getD_eq_getElem?_getD, List.getElem?_set_self hr]

theorem value_bump_ne {d : UInt8} {h : Heap} {r s : Nat} (hne : value h s ≠ value h r) :
    value (bump d h r) s = value h s := by
  rw [value, value, read_bump_ne]
  rintro rfl
  exact hne rfl

theorem exists_concat {ip : IP} (h : isIPv4 ip = true) :
    ∃ p b, ip = p ++ [b] ∧ (p.length = 3 ∨ p.length = 15 ∧ p.take 12 = v4InV6Prefix) := by
  rcases List.eq_nil_or_concat ip with rfl | ⟨p, b, rfl⟩
  · simp [isIPv4] at h
  · refine ⟨p, b, by rw [List.concat_eq_append], ?_⟩
    simp only [isIPv4, List.concat_eq_append, List.length_append, List.length_singleton, Bool.or_eq_true,
      beq_iff_eq, Bool.and_eq_true] at h
    rcases h with h | ⟨h1, h2⟩
    · exact Or.inl (by omega)
    · rw [List.take_append_of_le_length (by omega)] at h2
      exact Or.inr ⟨by omega, h2⟩

theorem isIPv4_concat {p : IP} (b : UInt8)
    (h : p.length = 3 ∨ p.length = 15 ∧ p.take 12 = v4InV6Prefix) : isIPv4 (p ++ [b]) = true := by
  rcases h with h | ⟨h1, h2⟩
  · simp [isIPv4, h]
  · simp only [isIPv4, List.length_append, h1, List.length_singleton, List.take_append_of_le_length
      (show 12 ≤ p.length by omega), h2]
    rfl

theorem bumped_spec {ip : IP} (h : isIPv4 ip = true) (d : UInt8) :
    isIPv4 (bumped d ip) = true ∧ (bumped d ip).length = ip.length ∧
      val (bumped d ip) = val ip / 256 * 256 + (val ip + d.toNat) % 256 := by
  obtain ⟨p, b, rfl, hp⟩ := exists_concat h
  have hb := UInt8.toNat_lt b
  have he : bumped d (p ++ [b]) = p ++ [b + d] := by simp [bumped]
  refine ⟨by rw [he]; exact isIPv4_concat _ hp, by simp [he], ?_⟩
  rw [he, val_concat, val_concat, UInt8.toNat_add]
  omega

theorem bumpAt_eq {n : Nat} {h : Heap} (hp : Plain n h) {r : Nat} (hr : r < h.length) (d : UInt8) :
    bumpAt d h r = some (bump d h r) := by
  simp [bumpAt, bumpLast, (hp _ (read_mem hr)).2, bump, bumped]

theorem Plain.bump {n : Nat} {h : Heap} (hp : Plain n h) {r : Nat} (hr : r < h.length) (d : UInt8) :
    Plain n (bump d h r) := by
  intro ip hip
  rcases List.mem_or_eq_of_mem_set hip with hip | rfl
  · exact hp ip hip
  · obtain ⟨h1, h2⟩ := hp _ (read_mem hr)
    obtain ⟨h3, h4, _⟩ := bumped_spec h2 d
    exact ⟨h4.trans h1, h3⟩

/-- Adding one to the last byte goes wrong where it carries. -/
theorem value_succ {n : Nat} {h : Heap} (hp : Plain n h) {r : Nat} (hr : r < h.length) :
    if value h r % 256 = 255 then value (bump 1 h r) r + 255 = value h r
    else value (bump 1 h r) r = value h r + 1 := by
  have hv := (bumped_spec (hp _ (read_mem hr)).2 1).2.2
  rw [← read_bump_self hr] at hv
  change value _ r = value h r / 256 * 256 + (value h r + 1) % 256 at hv
  split <;> omega

/-- Taking one from the last byte goes wrong where it borrows. -/
theorem value_pred {n : Nat} {h : Heap} (hp : Plain n h) {r : Nat} (hr : r < h.length) :
    if value h r % 256 = 0 then value (bump 255 h r) r = value h r + 255
    else value (bump 255 h r) r + 1 = value h r := by
  have hv := (bumped_spec (hp _ (read_mem hr)).2 255).2.2
  rw [← read_bump_self hr] at hv
  change value _ r = value h r / 256 * 256 + (value h r + 255) % 256 at hv
  split <;> omega

/-- Taking one and adding one on one array gives its bytes back. -/
theorem bump_bump {n : Nat} {h : Heap} (hp : Plain n h) {r : Nat} (hr : r < h.length) :
    bump 1 (bump 255 h r) r = h := by
  obtain ⟨p, b, hip, _⟩ := exists_concat (hp _ (read_mem hr)).2
  have hb : bumped 1 (bumped 255 (read h r)) = read h r := by
    rw [hip]
    simp only [bumped, List.dropLast_concat, List.getLastD_concat]
    congr 2
    exact UInt8.toNat_inj.mp (by
      have := UInt8.toNat_lt b
      rw [UInt8.toNat_add, UInt8.toNat_add]
      change ((b.toNat + 255) % 256 + 1) % 256 = _
      omega)
  rw [bump, read_bump_self hr, hb, bump, List.set_set, read, List.getD_eq_getElem _ _ hr]
  exact List.set_getElem_self hr

/-- The state of the sweep: the arrays, what is left of both lists, and the result so far. -/
structure Sweep where
  heap : Heap
  ins : List (Range Nat)
  outs : List (Range Nat)
  min : List (Range Nat)

/-- Every array is an IPv4 address of `n` bytes and every end point refers to one. -/
structure Sweep.Sound (n : Nat) (st : Sweep) : Prop where
  plain : Plain n st.heap
  ins : ∀ i ∈ st.ins, i.start < st.heap.length ∧ i.stop < st.heap.length
  outs : ∀ o ∈ st.outs, o.start < st.heap.length ∧ o.stop < st.heap.length

/-- One round of the sweep, told by the values of the four end points. -/
inductive Sweep.Step : Sweep → Sweep → Prop
  | dropOut {h i ins o outs min} (hlt : value h o.stop < value h i.start) :
    Step ⟨h, i :: ins, o :: outs, min⟩ ⟨h, i :: ins, outs, min⟩
  | keepIn {h i ins o outs min} (hlt : value h i.stop < value h o.start) :
    Step ⟨h, i :: ins, o :: outs, min⟩ ⟨h, ins, o :: outs, min ++ [i]⟩
  | dropIn {h i ins o outs min} (hl : value h o.start ≤ value h i.start)
    (hr : value h i.stop ≤ value h o.stop) :
    Step ⟨h, i :: ins, o :: outs, min⟩ ⟨h, ins, o :: outs, min⟩
  | split {h i ins o outs min} (hl : value h i.start ≤ value h o.start)
    (hr : value h o.stop ≤ value h i.stop)
    (hmeet : value h o.start ≤ value h i.stop)
    (hno : ¬ (value h o.start ≤ value h i.start ∧ value h i.stop ≤ value h o.stop)) :
    Step ⟨h, i :: ins, o :: outs, min⟩
      ⟨bump 1 (bump 255 h o.start) o.stop, ⟨o.stop, i.stop⟩ :: ins, outs, min ++ [⟨i.start, o.start⟩]⟩
  | trimStart {h i ins o outs min} (hl : value h o.start < value h i.start)
    (hmeet : value h i.start ≤ value h o.stop) (hr : value h o.stop < value h i.stop) :
    Step ⟨h, i :: ins, o :: outs, min⟩ ⟨bump 1 h o.stop, ⟨o.stop, i.stop⟩ :: ins, outs, min⟩
  | trimEnd {h i ins o outs min} (hl : value h i.start < value h o.start)
    (hmeet : value h o.start ≤ value h i.stop) (hr : value h i.stop < value h o.stop) :
    Step ⟨h, i :: ins, o :: outs, min⟩ ⟨bump 255 h o.start, ins, o :: outs, min ++ [⟨i.start, o.start⟩]⟩

theorem Sweep.Step.sound {n : Nat} {st st' : Sweep} (h : st.Step st') (hs : st.Sound n) : st'.Sound n := by
  obtain ⟨hp, hi, ho⟩ := hs
  cases h with
  | dropOut => exact ⟨hp, hi, fun o h => ho o (by simp_all)⟩
  | keepIn => exact ⟨hp, fun i h => hi i (by simp_all), ho⟩
  | dropIn => exact ⟨hp, fun i h => hi i (by simp_all), ho⟩
  | @split h i ins o outs min =>
    have h1 := hi i (by simp)
    have h2 := ho o (by simp)
    refine ⟨(hp.bump h2.1 255).bump (by simpa using h2.2) 1, fun x hx => ?_, fun x hx => ?_⟩
    · simp only [length_bump]
      rcases List.mem_cons.mp hx with rfl | hx
      · exact ⟨h2.2, h1.2⟩
      · exact hi x (by simp [hx])
    · simp only [length_bump]
      exact ho x (List.mem_cons_of_mem _ hx)
  | @trimStart h i ins o outs min =>
    have h1 := hi i (by simp)
    have h2 := ho o (by simp)
    refine ⟨hp.bump h2.2 1, fun x hx => ?_, fun x hx => ?_⟩
    · simp only [length_bump]
      rcases List.mem_cons.mp hx with rfl | hx
      · exact ⟨h2.2, h1.2⟩
      · exact hi x (by simp [hx])
    · simp only [length_bump]
      exact ho x (List.mem_cons_of_mem _ hx)
  | @trimEnd h i ins o outs min =>
    refine ⟨hp.bump (ho o (by simp)).1 255, fun x hx => ?_, fun x hx => ?_⟩
    · simp only [length_bump]
      exact hi x (List.mem_cons_of_mem _ hx)
    · simp only [length_bump]
      exact ho x hx

/-- The ranges of the result start in arrays of the heap. -/
theorem Sweep.Step.min_refs {n : Nat} {st st' : Sweep} (h : st.Step st') (hs : st.Sound n)
    (hm : ∀ r ∈ st.min, r.start < st.heap.length) : ∀ r ∈ st'.min, r.start < st'.heap.length := by
  have happ : ∀ {min : List (Range Nat)} {x : Range Nat} {k : Nat}, (∀ r ∈ min, r.start < k) →
      x.start < k → ∀ r ∈ min ++ [x], r.start < k := by
    intro min x k hmin hx r hr
    rcases List.mem_append.mp hr with hr | hr
    · exact hmin r hr
    · rw [List.mem_singleton.mp hr]
      exact hx
  cases h with
  | dropOut => exact hm
  | keepIn => exact happ hm (hs.ins _ (by simp)).1
  | dropIn => exact hm
  | @split h i ins o outs min =>
    simp only [length_bump]
    exact happ hm (hs.ins i (by simp)).1
  | trimStart => simpa only [length_bump] using hm
  | @trimEnd h i ins o outs min =>
    simp only [length_bump]
    exact happ hm (hs.ins i (by simp)).1

/-- The switch always finds a branch, so the loop takes one of the steps. -/
theorem removeLoop_step {n : Nat} {h : Heap} {i o : Range Nat} {ins outs min : List (Range Nat)}
    (hs : Sweep.Sound n ⟨h, i :: ins, o :: outs, min⟩) (fuel : Nat) :
    ∃ st, Sweep.Step ⟨h, i :: ins, o :: outs, min⟩ st ∧
      st.ins.length + st.outs.length < (i :: ins).length + (o :: outs).length ∧
      removeLoop (fuel + 1) h (i :: ins) (o :: outs) min =
        removeLoop fuel st.heap st.ins st.outs st.min := by
  obtain ⟨hp, hi, ho⟩ := hs
  have h1 := hi i (by simp)
  have h2 := ho o (by simp)
  have hlen : ∀ {a b}, a < h.length → b < h.length → (read h a).length = (read h b).length :=
    fun ha hb => (hp _ (read_mem ha)).1.trans (hp _ (read_mem hb)).1.symm
  have hp' := hp.bump h2.1 255
  have h2' : o.stop < (bump 255 h o.start).length := by simpa using h2.2
  rw [removeLoop]
  simp only [Range.map, compare_neg_iff (hlen h2.2 h1.1), compare_neg_iff (hlen h1.2 h2.1),
    compare_nonpos_iff (hlen h2.1 h1.1), compare_nonneg_iff (hlen h2.2 h1.2),
    compare_nonpos_iff (hlen h1.1 h2.1), compare_nonneg_iff (hlen h1.2 h2.2),
    compare_neg_iff (hlen h1.1 h2.1), compare_pos_iff (hlen h2.2 h1.2), bumpAt_eq hp h2.1,
    bumpAt_eq hp h2.2, bumpAt_eq hp' h2', Option.bind_eq_bind, Option.bind_some]
  change ∃ st, _ ∧ _ ∧ (if value h o.stop < value h i.start then _ else
    if value h i.stop < value h o.start then _ else
    if value h o.start ≤ value h i.start ∧ value h i.stop ≤ value h o.stop then _ else
    if value h i.start ≤ value h o.start ∧ value h o.stop ≤ value h i.stop then _ else
    if value h o.start ≤ value h i.start ∧ value h o.stop ≤ value h i.stop then _ else
    if value h i.start < value h o.start ∧ value h i.stop < value h o.stop then _ else _) = _
  split
  next hc => exact ⟨_, .dropOut hc, by simp, rfl⟩
  next hc1 =>
    split
    next hc => exact ⟨_, .keepIn hc, by simp, rfl⟩
    next hc2 =>
      split
      next hc => exact ⟨_, .dropIn hc.1 hc.2, by simp, rfl⟩
      next hc3 =>
        split
        next hc => exact ⟨_, .split hc.1 hc.2 (by omega) hc3, by simp, rfl⟩
        next hc4 =>
          split
          next hc => exact ⟨_, .trimStart (by omega) (by omega) (by omega), by simp, rfl⟩
          next hc5 =>
            rw [if_pos (by omega)]
            exact ⟨_, .trimEnd (by omega) (by omega) (by omega), by simp, rfl⟩

/-- The loop follows the steps until one of the lists is empty; it never panics. -/
theorem removeLoop_run {n : Nat} (fuel : Nat) {st : Sweep} (hs : st.Sound n)
    (hf : st.ins.length + st.outs.length ≤ fuel) :
    ∃ st', Relation.ReflTransGen Sweep.Step st st' ∧ (st'.ins = [] ∨ st'.outs = []) ∧
      removeLoop fuel st.heap st.ins st.outs st.min = some (st'.heap, st'.min ++ st'.ins) := by
  induction fuel generalizing st with
  | zero =>
    have h0 : st.ins = [] := List.length_eq_zero_iff.mp (by omega)
    exact ⟨st, .refl, Or.inl h0, by simp [h0, removeLoop]⟩
  | succ fuel ih =>
    obtain ⟨h, ins, outs, min⟩ := st
    cases ins with
    | nil => exact ⟨_, .refl, Or.inl rfl, by simp [removeLoop]⟩
    | cons i ins =>
      cases outs with
      | nil => exact ⟨_, .refl, Or.inr rfl, by simp [removeLoop]⟩
      | cons o outs =>
        obtain ⟨st₁, hstep, hlt, heq⟩ := removeLoop_step hs fuel
        simp only at hf
        obtain ⟨st', hrun, hend, hres⟩ := ih (hstep.sound hs) (by omega)
        exact ⟨st', .head hstep hrun, hend, heq.trans hres⟩

theorem Sweep.Sound.run {n : Nat} {st st' : Sweep} (hs : st.Sound n)
    (hm : ∀ r ∈ st.min, r.start < st.heap.length) (hrun : Relation.ReflTransGen Sweep.Step st st') :
    st'.Sound n ∧ ∀ r ∈ st'.min, r.start < st'.heap.length := by
  induction hrun with
  | refl => exact ⟨hs, hm⟩
  | tail _ hstep ih => exact ⟨hstep.sound ih.1, hstep.min_refs ih.1 ih.2⟩

end Dni
