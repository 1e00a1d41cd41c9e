import Dni.CidrSplit
import Dni.Lib.Loops

namespace Dni

open Bytes Dyadic SortSearch Loops

/-- The order of `lessThan`: shorter addresses first, then by value. -/
theorem lessThan_eq_false_iff {a b : IP} :
    lessThan b a = false ↔ a.length < b.length ∨ a.length = b.length ∧ val a ≤ val b := by
  rw [← Bool.not_eq_true]
  by_cases h : b.length = a.length
  · rw [lessThan_iff h]
    omega
  · simp only [lessThan, ne_eq, h, not_false_eq_true, if_true, decide_eq_true_eq]
    omega

theorem rangeLess_trans {ρ : Type} {rd : ρ → IP} (a b c : Range ρ) (hab : rangeLess rd b a = false)
    (hbc : rangeLess rd c b = false) : rangeLess rd c a = false := by
  simp only [rangeLess, lessThan_eq_false_iff] at *
  omega

theorem rangeLess_total {ρ : Type} {rd : ρ → IP} (a b : Range ρ) :
    rangeLess rd b a = false ∨ rangeLess rd a b = false := by
  simp only [rangeLess, lessThan_eq_false_iff]
  omega

/-- A sorter for ranges exists: `Less` is a strict weak order. -/
def rangeSorter {ρ : Type} (rd : ρ → IP) : Sorter (rangeLess rd) := Sorter.mergeSort rangeLess_trans rangeLess_total

/-- Between two merged ranges of one family at least one address is missing. -/
def Separated (a b : Range IP) : Prop :=
  a.start.length < b.start.length ∨ a.start.length = b.start.length ∧ val a.stop + 1 < val b.start

theorem lastIP_range {a m : IP} (h : NetIPNet.Canonical ⟨a, m⟩) :
    ∃ last, lastIP ⟨a, m⟩ = some last ∧ Range.Valid ⟨a, last⟩ ∧
      ∀ x, NetIPNet.Covers ⟨a, m⟩ x ↔ Range.Covers ⟨a, last⟩ x := by
  obtain ⟨hf, k, hk, hm, ha⟩ := h
  dsimp only at hf hk hm ha
  subst hm
  obtain ⟨last, hl, hll, hv⟩ := lastIP_spec hf hk ha
  have hp := Nat.two_pow_pos k
  refine ⟨last, hl, ⟨hf, hll, by simp only; omega⟩, fun x => ?_⟩
  have hb' : IsBlock a.length ⟨a, cidrMask (8 * a.length - k) (8 * a.length)⟩ ⟨val a, k, ha⟩ :=
    ⟨rfl, rfl, hk, rfl⟩
  rw [hb'.covers_iff hf, mem_def, Range.Covers]
  simp only
  constructor <;> rintro ⟨h1, h2, h3⟩ <;> exact ⟨h1, h2, by omega⟩

theorem IRange.toRange_spec {i : IRange IP} (h : i.Valid) :
    ∃ r, i.toRange = some r ∧ r.Valid ∧ ∀ a, i.Covers a ↔ r.Covers a := by
  cases i with
  | ip b =>
    refine ⟨⟨b, b⟩, rfl, ⟨h, rfl, le_rfl⟩, fun a => ?_⟩
    constructor
    · rintro rfl
      exact ⟨rfl, le_rfl, le_rfl⟩
    · intro h
      rcases h with ⟨hl, h1, h2⟩
      exact val_inj hl (Nat.le_antisymm h2 h1)
  | net b m =>
    obtain ⟨last, hl, hv, hc⟩ := lastIP_range h
    exact ⟨⟨b, last⟩, by simp [IRange.toRange, hl], hv, hc⟩
  | range r => exact ⟨r, rfl, h, fun _ => Iff.rfl⟩

theorem mapM_toRange_spec {l : List (IRange IP)} (h : ∀ i ∈ l, i.Valid) :
    ∃ rs, l.mapM IRange.toRange = some rs ∧ (∀ r ∈ rs, r.Valid) ∧
      ∀ a, (∃ i ∈ l, i.Covers a) ↔ ∃ r ∈ rs, r.Covers a := by
  obtain ⟨rs, hrs, hf⟩ := mapM_forall₂ fun i hi => IRange.toRange_spec (h i hi)
  refine ⟨rs, hrs, ?_, ?_⟩
  · intro r hr
    obtain ⟨i, _, hv, _⟩ := forall₂_exists_right hf.flip hr
    exact hv
  · intro a
    apply Iff.intro
    · intro ⟨i, hi, ha⟩
      obtain ⟨r, hr, _, hc⟩ := forall₂_exists_right hf hi
      exact ⟨r, hr, (hc a).mp ha⟩
    · intro ⟨r, hr, ha⟩
      obtain ⟨i, hi, _, hc⟩ := forall₂_exists_right hf.flip hr
      exact ⟨i, hi, (hc a).mpr ha⟩

/-- Reading the end points commutes with merging: only their bytes are looked at. -/
theorem mergeLoop_map {ρ : Type} (rd : ρ → IP) (fl : Nat) (cur : Range ρ) (rest : List (Range ρ)) :
    (mergeLoop rd fl cur rest).map (Range.map rd) =
      mergeLoop id fl (cur.map rd) (rest.map (Range.map rd)) := by
  induction rest generalizing fl cur with
  | nil => rfl
  | cons now rest ih =>
    simp only [mergeLoop, List.map_cons, Range.map, id_eq]
    split
    · simp only [List.map_cons, ih]; rfl
    · split
      · rw [ih]
        split <;> rfl
      · simp only [List.map_cons, ih]; rfl

/-- What the merging of `cur` with the sorted ranges after it comes to. -/
structure Merged (cur : Range IP) (rest out : List (Range IP)) : Prop where
  valid : ∀ r ∈ out, r.Valid
  separated : out.Pairwise Separated
  covers : ∀ a, (∃ r ∈ out, r.Covers a) ↔ cur.Covers a ∨ ∃ r ∈ rest, r.Covers a
  after : ∀ r ∈ out, lessThan r.start cur.start = false

theorem Merged.cons {cur now : Range IP} {rest out : List (Range IP)} (hv : cur.Valid)
    (hsep : ∀ r, lessThan r.start now.start = false → Separated cur r)
    (hle : lessThan now.start cur.start = false) (h : Merged now rest out) :
    Merged cur (now :: rest) (cur :: out) := by
  refine ⟨?_, List.pairwise_cons.mpr ⟨fun r hr => hsep r (h.after r hr), h.separated⟩, ?_, ?_⟩
  · intro r hr
    rcases List.mem_cons.mp hr with rfl | hr
    · exact hv
    · exact h.valid r hr
  · intro a
    simp only [List.mem_cons, exists_eq_or_imp, h.covers a]
  · intro r hr
    rcases List.mem_cons.mp hr with rfl | hr
    · rw [lessThan_eq_false_iff]; omega
    · have h1 := h.after r hr
      rw [lessThan_eq_false_iff] at *
      omega

/-- Growing `cur` over an overlapping or adjacent range keeps it one range. -/
theorem grow_covers {cur now : Range IP} (hv : cur.Valid) (hn : now.Valid)
    (hfam : now.start.length = cur.start.length) (hle : val cur.start ≤ val now.start)
    (hjoin : val now.start ≤ val cur.stop + 1) :
    (if lessThan cur.stop now.stop then (⟨cur.start, now.stop⟩ : Range IP) else cur).Valid ∧
      ∀ a, (if lessThan cur.stop now.stop then (⟨cur.start, now.stop⟩ : Range IP) else cur).Covers a ↔
        cur.Covers a ∨ now.Covers a := by
  have hlt := lessThan_iff (a := cur.stop) (b := now.stop) (by rw [hv.2.1, hn.2.1, hfam])
  have h1 := hv.2.2
  have h2 := hn.2.2
  split
  next h =>
    have hs := hlt.mp h
    refine ⟨⟨hv.1, by simp [hn.2.1, hfam], by simp only; omega⟩, fun a => ?_⟩
    simp only [Range.Covers, hfam, ← and_or_left]
    refine and_congr_right fun _ => ?_
    omega
  next h =>
    have hs : ¬ val cur.stop < val now.stop := fun hc => h (hlt.mpr hc)
    refine ⟨hv, fun a => ?_⟩
    simp only [Range.Covers, hfam, ← and_or_left]
    refine and_congr_right fun _ => ?_
    omega

/-- Two ranges of a family are joined unless an address lies between them. -/
theorem joins_iff {stop start : IP} (hl : start.length = stop.length) :
    (allFF stop || !lessThan (addOne stop) start) = true ↔ val start ≤ val stop + 1 := by
  have hbound := val_lt stop
  have hstart := val_lt start
  rw [hl] at hstart
  by_cases hff : val stop + 1 = 256 ^ stop.length
  · rw [(allFF_iff stop).mpr hff, Bool.true_or]
    exact iff_of_true rfl (by omega)
  · have hnff : allFF stop = false := Bool.eq_false_iff.mpr fun h => hff ((allFF_iff stop).mp h)
    have hone : val (addOne stop) = val stop + 1 := val_addOne_of_lt (by omega)
    have hless := lessThan_iff (a := addOne stop) (b := start) (by rw [length_addOne, hl])
    rw [hnff, Bool.false_or, Bool.not_eq_true', ← Bool.not_eq_true, hless, hone, not_lt]

theorem mergeLoop_spec {cur : Range IP} {rest : List (Range IP)} (hv : cur.Valid)
    (hrest : ∀ r ∈ rest, r.Valid)
    (sorted : (cur :: rest).Pairwise fun a b => lessThan b.start a.start = false) :
    Merged cur rest (mergeLoop id cur.start.length cur rest) := by
  induction rest generalizing cur with
  | nil =>
    refine ⟨by simpa [mergeLoop] using hv, by simp [mergeLoop], by simp [mergeLoop], ?_⟩
    simp [mergeLoop, lessThan_eq_false_iff]
  | cons now rest ih =>
    obtain ⟨hfirst, hsorted⟩ := List.pairwise_cons.mp sorted
    obtain ⟨hnow, hsrest⟩ := List.pairwise_cons.mp hsorted
    have hn := hrest now (by simp)
    have hr : ∀ r ∈ rest, r.Valid := fun r h => hrest r (by simp [h])
    have hle := hfirst now (by simp)
    have hord := lessThan_eq_false_iff.mp hle
    unfold mergeLoop
    simp only [id_eq]
    split
    next hfl =>
      refine Merged.cons hv (fun r h => Or.inl ?_) hle (ih hn hr hsorted)
      rw [lessThan_eq_false_iff] at h
      omega
    next hfl =>
      have hfam : now.start.length = cur.start.length := not_not.mp hfl
      have hcmp := joins_iff (hfam.trans hv.2.1.symm)
      split
      next hjoin =>
        have hj := hcmp.mp hjoin
        obtain ⟨hgv, hgc⟩ := grow_covers hv hn hfam (by omega) hj
        have hstart : ∀ c : Prop, [Decidable c] →
            (if c then (⟨cur.start, now.stop⟩ : Range IP) else cur).start = cur.start := by
          intro c _; split <;> rfl
        have hm := ih hgv hr (List.pairwise_cons.mpr ⟨fun r h => by
          rw [hstart]; exact hfirst r (by simp [h]), hsrest⟩)
        rw [hstart] at hm
        refine ⟨hm.valid, hm.separated, fun a => ?_, fun r h => ?_⟩
        · rw [hm.covers a, hgc a]
          simp only [List.mem_cons, exists_eq_or_imp, or_assoc]
        · have := hm.after r h
          rwa [hstart] at this
      next hjoin =>
        have hgap := not_le.mp (mt hcmp.mpr hjoin)
        rw [← hfam]
        refine Merged.cons hv (fun r h => ?_) hle (ih hn hr hsorted)
        rw [lessThan_eq_false_iff] at h
        unfold Separated
        omega

theorem mergeRanges_spec {ρ : Type} (rd : ρ → IP) (sort : Sorter (rangeLess rd)) {rs : List (Range ρ)}
    (h : ∀ r ∈ rs, (r.map rd).Valid) :
    (∀ r ∈ mergeRanges rd sort rs, (r.map rd).Valid) ∧
      (mergeRanges rd sort rs).Pairwise (fun a b => Separated (a.map rd) (b.map rd)) ∧
      ∀ a, (∃ r ∈ mergeRanges rd sort rs, (r.map rd).Covers a) ↔ ∃ r ∈ rs, (r.map rd).Covers a := by
  have hperm := sort.perm rs
  have hsorted := sort.sorted rs
  unfold mergeRanges
  cases hrun : sort.run rs with
  | nil =>
    rw [hrun] at hperm
    have : rs = [] := hperm.symm.eq_nil
    subst this
    simp
  | cons now rest =>
    rw [hrun] at hperm hsorted
    have hv : ∀ r ∈ now :: rest, (r.map rd).Valid := fun r hr => h r (hperm.mem_iff.mp hr)
    have hrest : ∀ r ∈ rest.map (Range.map rd), r.Valid := fun r hr => by
      obtain ⟨x, hx, rfl⟩ := List.mem_map.mp hr
      exact hv x (by simp [hx])
    have hs : (now.map rd :: rest.map (Range.map rd)).Pairwise
        fun a b => lessThan b.start a.start = false := by
      rw [← List.map_cons, List.pairwise_map]
      exact hsorted
    have hm := mergeLoop_spec (hv now (by simp)) hrest hs
    have hmap := mergeLoop_map rd (rd now.start).length now rest
    rw [show (now.map rd).start.length = (rd now.start).length from rfl, ← hmap] at hm
    refine ⟨fun r hr => hm.valid _ (List.mem_map_of_mem hr), List.pairwise_map.mp hm.separated, fun a => ?_⟩
    have hcov := hm.covers a
    simp only [List.mem_map, exists_exists_and_eq_and] at hcov
    rw [hcov]
    constructor
    · rintro (hc | ⟨r, hr, hc⟩)
      · exact ⟨now, hperm.mem_iff.mp (by simp), hc⟩
      · exact ⟨r, hperm.mem_iff.mp (by simp [hr]), hc⟩
    · intro h
      rcases h with ⟨r, hr, hc⟩
      rcases List.mem_cons.mp (hperm.mem_iff.mpr hr) with rfl | hr
      · exact Or.inl hc
      · exact Or.inr ⟨r, hr, hc⟩

theorem sortAndMerge_spec (sort : Sorter (rangeLess (id : IP → IP))) {l : List (IRange IP)}
    (h : ∀ i ∈ l, i.Valid) :
    ∃ out, sortAndMerge sort l = some out ∧ (∀ r ∈ out, r.Valid) ∧ out.Pairwise Separated ∧
      ∀ a, (∃ r ∈ out, r.Covers a) ↔ ∃ i ∈ l, i.Covers a := by
  obtain ⟨rs, hrs, hv, hc⟩ := mapM_toRange_spec h
  obtain ⟨h1, h2, h3⟩ := mergeRanges_spec id sort hv
  exact ⟨mergeRanges id sort rs, by simp [sortAndMerge, hrs], h1, h2, fun a => (h3 a).trans (hc a).symm⟩

end Dni
