import Dni.RemoveRangeExact

namespace Dni

open Bytes SortSearch Sweep

/-- `[lo, hi]` is a maximal run of consecutive addresses of the list. -/
def Block (n : Nat) (h : Heap) (l : List (IRange Nat)) (lo hi : Nat) : Prop :=
  lo ≤ hi ∧ hi < 256 ^ n ∧ (∀ a : IP, a.length = n → lo ≤ val a → val a ≤ hi → CoversAt h l a) ∧
    ∀ a, CoversAt h l a → val a + 1 ≠ lo ∧ val a ≠ hi + 1

/-- Of the ranges that `outs` stands for, the first one in sorted order that ends at `e` was made from
a network, so that the array of its end was made with it. -/
def EndsInNetwork (sort : HeapSorter) (h : Heap) (ins outs : List (IRange Nat)) (e : Nat) : Prop :=
  ∃ h₁ is h₂ rs, toRangesAt h ins = some (h₁, is) ∧ toRangesAt h₁ outs = some (h₂, rs) ∧
    ∃ r, ((sort h₂).run rs).find? (fun r => value h₂ r.stop = e) = some r ∧ h.length ≤ r.stop

/-- A run of removals that meets a run of `ins` contains it, or it starts before it, ends inside it
and ends with a network whose last byte can be incremented. -/
def RemovalsFit (n : Nat) (sort : HeapSorter) (h : Heap) (ins outs : List (IRange Nat)) : Prop :=
  ∀ lo hi lo' hi', Block n h ins lo hi → Block n h outs lo' hi' → lo ≤ hi' → lo' ≤ hi →
    lo' ≤ lo ∧ hi ≤ hi' ∨
      lo' < lo ∧ hi' < hi ∧ EndsInNetwork sort h ins outs hi' ∧ hi' % 256 ≠ 255

theorem Laid.eq_of_meet {n base : Nat} {h : Heap} {l : List (IRange IP)} {ms : List (Range Nat)}
    (hl : Laid n base h l ms) {r s : Range Nat} (hr : r ∈ ms) (hs : s ∈ ms)
    (h1 : value h r.start ≤ value h s.stop + 1) (h2 : value h s.start ≤ value h r.stop + 1) : s = r := by
  by_contra hne
  have hor := pairwise_or hl.order hr hs hne
  simp only [Apart] at hor
  have := hl.valid r hr
  have := hl.valid s hs
  omega

/-- The merged ranges are the maximal runs of the list. -/
theorem Laid.block_iff {n : Nat} {h₀ h : Heap} {l : List (IRange Nat)} {ms : List (Range Nat)}
    (hp : Plain n h) (hl : Laid n h₀.length h (l.map (IRange.map (read h₀))) ms) {lo hi : Nat} :
    Block n h₀ l lo hi ↔ ∃ r ∈ ms, value h r.start = lo ∧ value h r.stop = hi := by
  have hcov : ∀ a, CoversAt h₀ l a ↔ a.length = n ∧ ∃ r ∈ ms, r.Spans h (val a) := fun a => by
    rw [← hl.covers]
    simp [CoversAt]
  have hbound : ∀ r ∈ ms, value h r.stop < 256 ^ n := fun r hr => by
    have hb := val_lt (read h r.stop)
    rwa [(hp _ (read_mem (hl.refs r hr).2)).1] at hb
  constructor
  · intro h
    rcases h with ⟨hle, hlt, hin, hout⟩
    obtain ⟨a, hal, hav⟩ := exists_val (show lo < 256 ^ n by omega)
    obtain ⟨_, r, hr, hs⟩ := (hcov a).mp (hin a hal (by omega) (by omega))
    have hb := hbound r hr
    have hs1 := hs.1
    have hs2 := hs.2
    have hlo : value h r.start = lo := by
      by_contra hne
      obtain ⟨b, hbl, hbv⟩ := exists_val (show lo - 1 < 256 ^ n by omega)
      have := (hout b ((hcov b).mpr ⟨hbl, r, hr, by omega, by omega⟩)).1
      omega
    refine ⟨r, hr, hlo, Nat.le_antisymm ?_ ?_⟩
    · by_contra hgt
      obtain ⟨b, hbl, hbv⟩ := exists_val (show hi + 1 < 256 ^ n by omega)
      exact (hout b ((hcov b).mpr ⟨hbl, r, hr, by omega, by omega⟩)).2 hbv
    · by_contra hgt
      obtain ⟨b, hbl, hbv⟩ := exists_val (show value h r.stop + 1 < 256 ^ n by omega)
      obtain ⟨_, s, hsm, hsb⟩ := (hcov b).mp (hin b hbl (by omega) (by omega))
      have hb1 := hsb.1
      have hb2 := hsb.2
      have := hl.eq_of_meet hr hsm (by omega) (by omega)
      subst this
      omega
  · intro h
    rcases h with ⟨r, hr, rfl, rfl⟩
    refine ⟨hl.valid r hr, hbound r hr, fun a hal h1 h2 => (hcov a).mpr ⟨hal, r, hr, h1, h2⟩,
      fun a ha => ?_⟩
    obtain ⟨_, s, hs, hsp⟩ := (hcov a).mp ha
    have h1 := hsp.1
    have h2 := hsp.2
    have hv := hl.valid r hr
    constructor
    · intro he
      have := hl.eq_of_meet hr hs (by omega) (by omega)
      subst this
      omega
    · intro he
      have := hl.eq_of_meet hr hs (by omega) (by omega)
      subst this
      omega

/-- The end of a merged range is the array of the first of its inputs that ends there. -/
theorem mergeLoop_stop {n : Nat} {h : Heap} (hp : Plain n h) {cur : Range Nat} {rest : List (Range Nat)}
    (hv : ∀ r ∈ cur :: rest, (r.map (read h)).Valid ∧ r.start < h.length)
    (sorted : (cur :: rest).Pairwise fun a b => rangeLess (read h) b a = false) :
    ∀ r ∈ mergeLoop (read h) n cur rest, value h cur.stop ≤ value h r.stop ∧
      ∃ s, (cur :: rest).find? (fun s => value h s.stop = value h r.stop) = some s ∧ s.stop = r.stop := by
  induction rest generalizing cur with
  | nil =>
    intro r hr
    rw [mergeLoop, List.mem_singleton] at hr
    subst hr
    exact ⟨le_rfl, r, by simp, rfl⟩
  | cons now rest ih =>
    obtain ⟨hfirst, hsorted⟩ := List.pairwise_cons.mp sorted
    obtain ⟨hnow, hsrest⟩ := List.pairwise_cons.mp hsorted
    obtain ⟨hcv, hcl⟩ := hv cur (by simp)
    obtain ⟨hnv, hnl⟩ := hv now (by simp)
    have hclen := (hp _ (read_mem hcl)).1
    have hnlen := (hp _ (read_mem hnl)).1
    have hcs : (read h cur.stop).length = n := hcv.2.1.trans hclen
    have hns : (read h now.stop).length = n := hnv.2.1.trans hnlen
    have hnle : value h now.start ≤ value h now.stop := hnv.2.2
    have hlt := lessThan_iff (hcs.trans hns.symm)
    intro r hr
    rw [mergeLoop, if_neg (by rw [hnlen]; exact fun hne => hne rfl)] at hr
    split at hr
    next hjoin =>
      split at hr
      next hgrow =>
        have hgr : value h cur.stop < value h now.stop := hlt.mp hgrow
        obtain ⟨hle, s, hs, hse⟩ := @ih ⟨cur.start, now.stop⟩ (fun x hx => by
            rcases List.mem_cons.mp hx with rfl | hx
            · have hstart : value h cur.start ≤ value h cur.stop := hcv.2.2
              refine ⟨⟨hcv.1, hns.trans hclen.symm, ?_⟩, hcl⟩
              change value h cur.start ≤ value h now.stop
              omega
            · exact hv x (by simp [hx]))
          (List.pairwise_cons.mpr ⟨fun x hx => hfirst x (by simp [hx]), hsrest⟩) r hr
        simp only at hle
        refine ⟨by omega, ?_⟩
        rw [List.find?_cons_of_neg (by simp only [decide_eq_true_eq]; omega)]
        by_cases heq : value h now.stop = value h r.stop
        · rw [List.find?_cons_of_pos (by simpa using heq)] at hs ⊢
          obtain rfl := Option.some.inj hs
          exact ⟨now, rfl, hse⟩
        · rw [List.find?_cons_of_neg (by simpa using heq)] at hs ⊢
          exact ⟨s, hs, hse⟩
      next hkeep =>
        have hkp : value h now.stop ≤ value h cur.stop := Nat.not_lt.mp (hlt.not.mp hkeep)
        obtain ⟨hle, s, hs, hse⟩ := ih (fun x hx => hv x (by
            rcases List.mem_cons.mp hx with rfl | hx
            · simp
            · simp [hx]))
          (List.pairwise_cons.mpr ⟨fun x hx => hfirst x (by simp [hx]), hsrest⟩) r hr
        refine ⟨hle, ?_⟩
        by_cases heq : value h cur.stop = value h r.stop
        · rw [List.find?_cons_of_pos (by simpa using heq)] at hs ⊢
          exact ⟨s, hs, hse⟩
        · rw [List.find?_cons_of_neg (by simpa using heq)] at hs ⊢
          rw [List.find?_cons_of_neg (by simp only [decide_eq_true_eq]; omega)]
          exact ⟨s, hs, hse⟩
    next hgap =>
      rcases List.mem_cons.mp hr with rfl | hr
      · exact ⟨le_rfl, r, by simp, rfl⟩
      · obtain ⟨hle, s, hs, hse⟩ := ih (fun x hx => hv x (List.mem_cons_of_mem _ hx)) hsorted r hr
        have hgap : value h cur.stop + 1 < value h now.start := not_le.mp (mt (joins_iff (hnlen.trans hcs.symm)).mpr hgap)
        refine ⟨by omega, ?_⟩
        rw [List.find?_cons_of_neg (by simp only [decide_eq_true_eq]; omega)]
        exact ⟨s, hs, hse⟩

theorem mergeRanges_stop {n : Nat} {h : Heap} (hp : Plain n h) (sort : Sorter (rangeLess (read h)))
    {rs : List (Range Nat)} (hv : ∀ r ∈ rs, (r.map (read h)).Valid ∧ r.start < h.length)
    {r : Range Nat} (hr : r ∈ mergeRanges (read h) sort rs) :
    ∃ s, (sort.run rs).find? (fun s => value h s.stop = value h r.stop) = some s ∧ s.stop = r.stop := by
  have hperm := sort.perm rs
  have hsorted := sort.sorted rs
  unfold mergeRanges at hr
  cases hrun : sort.run rs with
  | nil => simp [hrun] at hr
  | cons now rest =>
    rw [hrun] at hperm hsorted hr
    have hv' : ∀ x ∈ now :: rest, (x.map (read h)).Valid ∧ x.start < h.length :=
      fun x hx => hv x (hperm.mem_iff.mp hx)
    simp only [(hp _ (read_mem (hv' now (by simp)).2)).1] at hr
    exact (mergeLoop_stop hp hv' hsorted r hr).2

/-- RemoveRange is right exactly when no removal starts inside a range that it does not cover, and no
removal ends inside a range unless with a network whose last byte does not carry. -/
theorem removeRange_exact (sort : HeapSorter) (n : Nat) (h : Heap) (ins outs : List (IRange Nat))
    (hin : HeldIn n h ins) (hout : HeldIn n h outs) :
    RemovesExactly sort h ins outs ↔ RemovalsFit n sort h ins outs := by
  obtain ⟨h₁, is, h₂, rs, mi, mo, hto₁, hto₂, hp⟩ := exists_prepared sort hin hout
  rw [hp.exact_iff]
  have hstop : ∀ o ∈ mo, EndsInNetwork sort h ins outs (value h₂ o.stop) ↔ h.length ≤ o.stop := by
    intro o ho
    rw [hp.merged] at ho
    obtain ⟨s, hs, hse⟩ := mergeRanges_stop hp.plain (sort h₂) hp.ranges ho
    constructor
    · intro h
      rcases h with ⟨h₁', is', h₂', rs', ht₁, ht₂, r, hr, hle⟩
      cases hto₁.symm.trans ht₁
      cases hto₂.symm.trans ht₂
      rw [hs] at hr
      cases hr
      rwa [← hse]
    · intro hle
      exact ⟨h₁, is, h₂, rs, hto₁, hto₂, s, hs, by rwa [hse]⟩
  constructor
  · intro hall lo hi lo' hi' hbi hbo hm₁ hm₂
    obtain ⟨i, hi, rfl, rfl⟩ := (hp.laidIns.block_iff hp.plain).mp hbi
    obtain ⟨o, ho, rfl, rfl⟩ := (hp.laidOuts.block_iff hp.plain).mp hbo
    rcases hall i hi o ho ⟨hm₁, hm₂⟩ with hf | ⟨h1, h2, h3, h4⟩
    · exact Or.inl hf
    · exact Or.inr ⟨h1, h2, (hstop o ho).mpr h3, h4⟩
  · intro hfit i hi o ho hm
    rcases hfit _ _ _ _ ((hp.laidIns.block_iff hp.plain).mpr ⟨i, hi, rfl, rfl⟩)
      ((hp.laidOuts.block_iff hp.plain).mpr ⟨o, ho, rfl, rfl⟩) hm.1 hm.2 with hf | ⟨h1, h2, h3, h4⟩
    · exact Or.inl hf
    · exact Or.inr ⟨h1, h2, (hstop o ho).mp h3, h4⟩

/-- Removing 10.0.1.0-10.0.1.5 borrows: the array of the removal's start becomes 10.0.1.255. -/
theorem removeRange_borrow :
    HeldIn 4 [[10, 0, 0, 0], [10, 0, 1, 10], [10, 0, 1, 0], [10, 0, 1, 5]] [.range ⟨0, 1⟩] ∧
    HeldIn 4 [[10, 0, 0, 0], [10, 0, 1, 10], [10, 0, 1, 0], [10, 0, 1, 5]] [.range ⟨2, 3⟩] ∧
    ¬ RemovesExactly (fun h => rangeSorter (read h))
      [[10, 0, 0, 0], [10, 0, 1, 10], [10, 0, 1, 0], [10, 0, 1, 5]] [.range ⟨0, 1⟩] [.range ⟨2, 3⟩] := by
  refine ⟨⟨by decide, by decide, ?_⟩, ⟨by decide, by decide, ?_⟩, ?_⟩
  · intro i hi
    rw [List.mem_singleton.mp hi]
    exact ⟨Or.inl rfl, rfl, by decide⟩
  · intro i hi
    rw [List.mem_singleton.mp hi]
    exact ⟨Or.inl rfl, rfl, by decide⟩
  · intro h
    rcases h with ⟨h', res, hrun, _, _, hkept⟩
    have hr : removeRange (fun h => rangeSorter (read h))
        [[10, 0, 0, 0], [10, 0, 1, 10], [10, 0, 1, 0], [10, 0, 1, 5]] [.range ⟨0, 1⟩] [.range ⟨2, 3⟩] =
        some ([[10, 0, 0, 0], [10, 0, 1, 10], [10, 0, 1, 255], [10, 0, 1, 6]], [⟨0, 2⟩, ⟨3, 1⟩]) := by
      decide +kernel
    rw [hr] at hrun
    cases hrun
    have := hkept 2 (by decide)
    revert this
    decide

/-- The run of one range, network or address goes from the first to the last address of its range. -/
theorem Block.bounds {n : Nat} {h : Heap} {i : IRange Nat} {r : Range IP} (hvalid : (i.map (read h)).Valid)
    (hr : (i.map (read h)).toRange = some r) (hn : r.start.length = n) {lo hi : Nat} (hb : Block n h [i] lo hi) :
    lo = val r.start ∧ hi = val r.stop := by
  obtain ⟨r', hr', hv, hcov⟩ := IRange.toRange_spec hvalid
  cases hr.symm.trans hr'
  obtain ⟨hle, hlt, hin, hout⟩ := hb
  have hcovers : ∀ a, CoversAt h [i] a ↔ a.length = n ∧ val r.start ≤ val a ∧ val a ≤ val r.stop := by
    intro a
    rw [CoversAt, ← hn]
    simp [hcov, Range.Covers]
  obtain ⟨a, halen, ha⟩ := exists_val (show lo < 256 ^ n by omega)
  obtain ⟨b, hblen, hb⟩ := exists_val hlt
  have hlo := ((hcovers a).mp (hin a halen (by omega) (by omega))).2
  have hhi := ((hcovers b).mp (hin b hblen (by omega) (by omega))).2
  refine ⟨Nat.le_antisymm (not_lt.mp fun hgt => ?_) (by omega), Nat.le_antisymm (by omega) (not_lt.mp fun hgt => ?_)⟩
  · obtain ⟨c, hclen, hc⟩ := exists_val (show lo - 1 < 256 ^ n by omega)
    have := (hout c ((hcovers c).mpr ⟨hclen, by omega, by omega⟩)).1
    omega
  · have hstop := Bytes.val_lt r.stop
    rw [hv.2.1, hn] at hstop
    obtain ⟨c, hclen, hc⟩ := exists_val (show hi + 1 < 256 ^ n by omega)
    exact (hout c ((hcovers c).mpr ⟨hclen, by omega, by omega⟩)).2 hc

/-- Two addresses and a network. -/
def trimHeap : Heap := [[10, 0, 0, 4], [10, 0, 0, 20], [10, 0, 0, 0]]

/-- The network 10.0.0.0/29 takes the first four addresses off the range. -/
theorem removeRange_exact_trimmed :
    RemovesExactly (fun h => rangeSorter (read h)) trimHeap [.range ⟨0, 1⟩] [.net 2 [255, 255, 255, 248]] ∧
      removeRange (fun h => rangeSorter (read h)) trimHeap [.range ⟨0, 1⟩] [.net 2 [255, 255, 255, 248]] =
        some (trimHeap ++ [[10, 0, 0, 8]], [⟨3, 1⟩]) := by
  have hrange : ((IRange.range (⟨0, 1⟩ : Range Nat)).map (read trimHeap)).Valid := ⟨Or.inl rfl, rfl, by decide⟩
  have hnet : ((IRange.net 2 [255, 255, 255, 248]).map (read trimHeap)).Valid :=
    ⟨Or.inl rfl, 3, by decide, by decide, by decide⟩
  refine ⟨(removeRange_exact _ 4 trimHeap _ _ ⟨by decide, by decide, ?_⟩ ⟨by decide, by decide, ?_⟩).mpr ?_,
    by decide +kernel⟩
  · intro i hi
    rwa [List.mem_singleton.mp hi]
  · intro i hi
    rwa [List.mem_singleton.mp hi]
  · intro lo hi lo' hi' hins houts _ _
    have hlast : ((IRange.net 2 [255, 255, 255, 248]).map (read trimHeap)).toRange =
        some ⟨[10, 0, 0, 0], [10, 0, 0, 7]⟩ := rfl
    obtain ⟨rfl, rfl⟩ := hins.bounds hrange rfl rfl
    obtain ⟨rfl, rfl⟩ := houts.bounds hnet hlast rfl
    refine Or.inr ⟨by decide, by decide, ?_, by decide⟩
    exact ⟨trimHeap, [⟨0, 1⟩], trimHeap ++ [[10, 0, 0, 7]], [⟨2, 3⟩], rfl, rfl, ⟨2, 3⟩, by decide +kernel, by decide⟩

end Dni
