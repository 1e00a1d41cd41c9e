import Dni.CidrMerge

namespace Dni

open Bytes Dyadic SortSearch Loops

theorem NetIPNet.covers_ip (n : NetIPNet) : n.Covers n.ip := ⟨rfl, rfl⟩

/-- Every address of `m` lies below every address of `n` of the same family. -/
def NetIPNet.Before (m n : NetIPNet) : Prop :=
  ∀ a b, m.Covers a → n.Covers b → a.length = b.length → val a < val b

theorem NetIPNet.Before.disjoint {m n : NetIPNet} (h : m.Before n) {a : IP} (hm : m.Covers a) :
    ¬ n.Covers a := fun hn => Nat.lt_irrefl _ (h a a hm hn rfl)

theorem NetIPNet.Canonical.convex {n : NetIPNet} (h : n.Canonical) {x y z : IP} (hx : n.Covers x)
    (hz : n.Covers z) (hl : y.length = x.length) (hxy : val x ≤ val y) (hyz : val y ≤ val z) :
    n.Covers y := by
  obtain ⟨b, hb⟩ := h.block
  have hc := hb.covers_iff h.1
  rw [hc] at hx hz ⊢
  exact ⟨hl.trans hx.1, hx.2.1.trans hxy, lt_of_le_of_lt hyz hz.2.2⟩

/-- What the networks written for one range come to. -/
structure SplitOf (r : Range IP) (nets : List NetIPNet) : Prop where
  canonical : ∀ n ∈ nets, n.Canonical
  covers : ∀ a, (∃ n ∈ nets, n.Covers a) ↔ r.Covers a
  ascending : nets.Pairwise NetIPNet.Before
  absorb : ∀ n ∈ nets, ∀ c : NetIPNet, c.Canonical → (∀ a, c.Covers a → r.Covers a) →
    ∀ x, n.Covers x → c.Covers x → ∀ y, c.Covers y → n.Covers y

theorem Range.toIPNets_spec {r : Range IP} (h : r.Valid) :
    ∃ nets, r.toIPNets = some nets ∧ SplitOf r nets := by
  obtain ⟨nets, bs, hn, hg, hf⟩ := Range.toIPNets_greedy h
  have hlen := h.1
  refine ⟨nets, hn, fun n hm => ?_, fun a => ?_, ?_, fun n hm c hc hin x hxn hxc y hy => ?_⟩
  · obtain ⟨b, _, hb⟩ := forall₂_exists_right hf hm
    exact hb.canonical hlen
  · have hcov := hg.cover (val a)
    constructor
    · intro h
      rcases h with ⟨n, hm, hc⟩
      obtain ⟨b, hbs, hb⟩ := forall₂_exists_right hf hm
      obtain ⟨hl, hmem⟩ := (hb.covers_iff hlen a).mp hc
      exact ⟨hl, hcov.mp ⟨b, hbs, hmem⟩⟩
    · intro h
      rcases h with ⟨hl, hr⟩
      obtain ⟨b, hbs, hmem⟩ := hcov.mpr hr
      obtain ⟨n, hm, hb⟩ := forall₂_exists_right hf.flip hbs
      exact ⟨n, hm, (IsBlock.covers_iff hlen hb a).mpr ⟨hl, hmem⟩⟩
  · refine forall₂_pairwise hf hg.ascending fun hb hb' hlt a a' ha ha' _ => ?_
    have h1 := ((hb.covers_iff hlen a).mp ha).2.2
    have h2 := ((hb'.covers_iff hlen a').mp ha').2.1
    omega
  · obtain ⟨b, hbs, hb⟩ := forall₂_exists_right hf hm
    obtain ⟨d, hd⟩ := hc.block
    have hdc := hd.covers_iff hc.1
    have hl : c.ip.length = r.start.length := (hin c.ip c.covers_ip).1
    have hbounds : val r.start ≤ d.base ∧ d.next ≤ val r.stop + 1 := by
      refine ⟨?_, ?_⟩
      · have := (hin c.ip c.covers_ip).2.1
        rw [hd.2.1] at this
        exact this
      · obtain ⟨_, k, hk, hmask, ha⟩ := hc
        obtain ⟨last, hlast, hll, hlv⟩ := lastIP_spec (hl ▸ hlen) hd.2.2.1 (hd.2.1.symm ▸ d.aligned)
        have hmem : val last ∈ d := by
          have := d.base_lt_next
          rw [hd.2.1] at hlv
          refine ⟨?_, ?_⟩ <;> unfold Block.next at * <;> omega
        have := (hin last ((hdc last).mpr ⟨hll, hmem⟩)).2.2
        rw [hd.2.1] at hlv
        unfold Block.next
        omega
    have hxb := ((hb.covers_iff hlen x).mp hxn).2
    have hxd := ((hdc x).mp hxc).2
    obtain ⟨hyl, hyd⟩ := (hdc y).mp hy
    exact (hb.covers_iff hlen y).mpr ⟨hyl.trans hl,
      hg.absorb hbs hbounds.1 hbounds.2 hxb hxd _ hyd⟩

theorem mapM_toIPNets_spec {rs : List (Range IP)} (h : ∀ r ∈ rs, r.Valid) :
    ∃ netss, rs.mapM Range.toIPNets = some netss ∧ List.Forall₂ SplitOf rs netss :=
  mapM_forall₂ fun r hr => Range.toIPNets_spec (h r hr)

/-- The address after a merged range belongs to none of them. -/
theorem gap_not_covered {out : List (Range IP)} (hv : ∀ r ∈ out, r.Valid)
    (hsep : out.Pairwise Separated) {r : Range IP} (hr : r ∈ out) {g : IP}
    (hgl : g.length = r.start.length) (hg : val g = val r.stop + 1) : ¬ ∃ s ∈ out, s.Covers g := by
  intro h
  rcases h with ⟨s, hs, hl, h1, h2⟩
  have hvr := (hv r hr).2.2
  have hvs := (hv s hs).2.2
  by_cases hsr : s = r
  · subst hsr; omega
  · have hor := pairwise_or hsep hr hs hsr
    unfold Separated at hor
    omega

/-- A network inside the union of merged ranges lies inside one of them, for it has no gaps. -/
theorem inside_one_range {out : List (Range IP)} (hv : ∀ r ∈ out, r.Valid)
    (hsep : out.Pairwise Separated) {c : NetIPNet} (hc : c.Canonical)
    (hin : ∀ a, c.Covers a → ∃ r ∈ out, r.Covers a) {r : Range IP} (hr : r ∈ out) {x : IP}
    (hx : c.Covers x) (hxr : r.Covers x) : ∀ y, c.Covers y → r.Covers y := by
  have gap : ∀ {s t : Range IP} {u w : IP}, s ∈ out → t ∈ out → Separated s t → s.Covers u →
      c.Covers u → t.Covers w → c.Covers w → False := by
    intro s t u w hs ht hst hsu hcu htw hcw
    have hvs := hv s hs
    have hvt := hv t ht
    have hlen : w.length = u.length := hcw.1.trans hcu.1.symm
    have hfam : s.start.length = t.start.length := by rw [← hsu.1, ← htw.1, hlen]
    have hlt : val s.stop + 1 < val t.start := by unfold Separated at hst; omega
    have hb := val_lt t.start
    have hg : val (addOne s.stop) = val s.stop + 1 :=
      val_addOne_of_lt (by rw [hvs.2.1, hfam]; omega)
    have hgl : (addOne s.stop).length = s.start.length := by rw [length_addOne, hvs.2.1]
    have hcov := hc.convex hcu hcw (y := addOne s.stop) (by rw [hgl, hsu.1])
      (by have := hsu.2.2; omega) (by have := htw.2.1; omega)
    exact gap_not_covered hv hsep hs hgl hg (hin _ hcov)
  intro y hy
  obtain ⟨s, hs, hsy⟩ := hin y hy
  by_cases hsr : s = r
  · exact hsr ▸ hsy
  · rcases pairwise_or hsep hr hs hsr with h | h
    · exact (gap hr hs h hxr hx hsy hy).elim
    · exact (gap hs hr h hsy hy hxr hx).elim

theorem forall₂_splits {out : List (Range IP)} {netss : List (List NetIPNet)}
    (hv : ∀ r ∈ out, r.Valid) (hsep : out.Pairwise Separated)
    (h : List.Forall₂ SplitOf out netss) :
    (∀ n ∈ netss.flatten, n.Canonical) ∧
      (∀ a, (∃ n ∈ netss.flatten, n.Covers a) ↔ ∃ r ∈ out, r.Covers a) ∧
      netss.flatten.Pairwise NetIPNet.Before := by
  induction h with
  | nil => simp
  | @cons r nets out netss hs _ ih =>
    obtain ⟨hfirst, hrest⟩ := List.pairwise_cons.mp hsep
    obtain ⟨h1, h2, h3⟩ := ih (fun x hx => hv x (by simp [hx])) hrest
    refine ⟨fun n hn => ?_, fun a => ?_, ?_⟩
    · rw [List.flatten_cons, List.mem_append] at hn
      exact hn.elim (hs.canonical n) (h1 n)
    · simp only [List.flatten_cons, List.mem_append, List.mem_cons, or_and_right, exists_or,
        exists_eq_left, h2 a, hs.covers a]
    · rw [List.flatten_cons, List.pairwise_append]
      refine ⟨hs.ascending, h3, fun m hm n hn a b ha hb hl => ?_⟩
      have hra := (hs.covers a).mp ⟨m, hm, ha⟩
      obtain ⟨r', hr', hrb⟩ := (h2 b).mp ⟨n, hn, hb⟩
      have hst := hfirst r' hr'
      unfold Separated at hst
      have := hra.2.2
      have := hrb.2.1
      have h1 := hra.1
      have h2 := hrb.1
      omega

/-- Each network of the split is maximal in the union, so no list of networks is shorter. -/
theorem splits_minimal {out : List (Range IP)} {netss : List (List NetIPNet)}
    (hv : ∀ r ∈ out, r.Valid) (hsep : out.Pairwise Separated)
    (h : List.Forall₂ SplitOf out netss) {other : List NetIPNet} (hc : ∀ n ∈ other, n.Canonical)
    (heq : ∀ a, (∃ n ∈ other, n.Covers a) ↔ ∃ r ∈ out, r.Covers a) :
    netss.flatten.length ≤ other.length := by
  obtain ⟨_, hcov, hasc⟩ := forall₂_splits hv hsep h
  refine length_le_of_pick (fun n c => (∃ x, c.Covers x) ∧ ∀ y, c.Covers y → n.Covers y)
    (fun n hn => ?_) (hasc.imp fun hb c hpick hpick' => ?_)
  · obtain ⟨nets, hnets, hmem⟩ := List.mem_flatten.mp hn
    obtain ⟨r, hr, hs⟩ := forall₂_exists_right h.flip hnets
    have hrn := ((hs : SplitOf r nets).covers n.ip).mp ⟨n, hmem, n.covers_ip⟩
    obtain ⟨c, hco, hcn⟩ := (heq n.ip).mpr ⟨r, hr, hrn⟩
    have hin := inside_one_range hv hsep (hc c hco) (fun a ha => (heq a).mp ⟨c, hco, ha⟩) hr hcn hrn
    exact ⟨c, hco, ⟨n.ip, hcn⟩, (hs : SplitOf r nets).absorb n hmem c (hc c hco) hin _ n.covers_ip hcn⟩
  · obtain ⟨⟨x, hx⟩, hin⟩ := hpick
    exact hb.disjoint (hin x hx) (hpick'.2 x hx)

theorem toIPNetsLoop_mono {fuel more : Nat} {s stop : IP} {nets : List NetIPNet} (hle : fuel ≤ more)
    (h : toIPNetsLoop fuel s stop = some nets) : toIPNetsLoop more s stop = some nets := by
  induction fuel generalizing s nets more with
  | zero => simp [toIPNetsLoop] at h
  | succ fuel ih =>
    obtain ⟨more, rfl⟩ : ∃ m, more = m + 1 := ⟨more - 1, by omega⟩
    rw [toIPNetsLoop] at h ⊢
    obtain ⟨tmp, ht, h⟩ := Option.bind_eq_some_iff.mp h
    rw [ht, Option.bind_some]
    split at h
    next hend => rw [if_pos hend]; exact h
    next hend =>
      rw [if_neg hend]
      obtain ⟨rest, hr, h⟩ := Option.map_eq_some_iff.mp h
      rw [ih (by omega) hr, Option.map_some, h]

/-- MergeIRanges returns the shortest list of networks with the union of its inputs, aligned and in
ascending order within each family, and its inner loop ends on every range of one family. -/
theorem mergeIRanges_correct (sort : Sorter (rangeLess (id : IP → IP))) (l : List (IRange IP))
    (h : ∀ i ∈ l, i.Valid) :
    (∃ nets : List NetIPNet,
      mergeIRanges sort l = some (nets.map fun n => IRange.net n.ip n.mask) ∧
      (∀ a, (∃ n ∈ nets, n.Covers a) ↔ ∃ i ∈ l, i.Covers a) ∧
      (∀ n ∈ nets, n.Canonical) ∧ nets.Pairwise NetIPNet.Before ∧
      ∀ other : List NetIPNet, (∀ n ∈ other, n.Canonical) →
        (∀ a, (∃ n ∈ other, n.Covers a) ↔ ∃ i ∈ l, i.Covers a) → nets.length ≤ other.length) ∧
    ∀ r : Range IP, Family r.start.length → r.stop.length = r.start.length →
      ∃ fuel nets, ∀ more, fuel ≤ more → toIPNetsLoop more r.start r.stop = some nets := by
  refine ⟨?_, fun r hf hl => ?_⟩
  · obtain ⟨out, hout, hv, hsep, hcov⟩ := sortAndMerge_spec sort h
    obtain ⟨netss, hn, hs⟩ := mapM_toIPNets_spec hv
    obtain ⟨h1, h2, h3⟩ := forall₂_splits hv hsep hs
    refine ⟨netss.flatten, by simp [mergeIRanges, hout, convertBatch, hn],
      fun a => (h2 a).trans (hcov a), h1, h3, fun other hc heq => ?_⟩
    exact splits_minimal hv hsep hs hc fun a => (heq a).trans (hcov a).symm
  · obtain ⟨nets, hn⟩ := Range.toIPNets_terminates hf hl
    exact ⟨_, nets, fun more hm => toIPNetsLoop_mono hm hn⟩

theorem mergeIRanges_correct_adjacent :
    (∀ i ∈ [IRange.ip [10, 0, 0, 1], IRange.range ⟨[10, 0, 0, 2], [10, 0, 0, 3]⟩, IRange.ip [10, 0, 0, 0]],
      i.Valid) ∧
    ∃ nets : List NetIPNet,
      mergeIRanges (rangeSorter id)
        [IRange.ip [10, 0, 0, 1], IRange.range ⟨[10, 0, 0, 2], [10, 0, 0, 3]⟩, IRange.ip [10, 0, 0, 0]] =
        some (nets.map fun n => IRange.net n.ip n.mask) ∧ nets.Pairwise NetIPNet.Before := by
  have hv : ∀ i ∈ [IRange.ip [10, 0, 0, 1], IRange.range ⟨[10, 0, 0, 2], [10, 0, 0, 3]⟩,
      IRange.ip [10, 0, 0, 0]], i.Valid := by
    intro i hi
    simp only [List.mem_cons, List.not_mem_nil, or_false] at hi
    rcases hi with rfl | rfl | rfl
    · exact Or.inl rfl
    · exact ⟨Or.inl rfl, rfl, by decide⟩
    · exact Or.inl rfl
  obtain ⟨nets, hn, _, _, hp, _⟩ := (mergeIRanges_correct (rangeSorter id) _ hv).1
  exact ⟨hv, nets, hn, hp⟩

/-- The merge of ranges whose union is known. -/
theorem mergeIRanges_union (sort : Sorter (rangeLess (id : IP → IP))) (covers : IP → Prop) {l : List (IRange IP)}
    (h : ∀ i ∈ l, i.Valid) (hunion : ∀ a, (∃ i ∈ l, i.Covers a) ↔ covers a) :
    ∃ nets : List NetIPNet, mergeIRanges sort l = some (nets.map fun n => IRange.net n.ip n.mask) ∧
      (∀ a, (∃ n ∈ nets, n.Covers a) ↔ covers a) ∧ (∀ n ∈ nets, n.Canonical) ∧ nets.Pairwise NetIPNet.Before ∧
      ∀ other : List NetIPNet, (∀ n ∈ other, n.Canonical) → (∀ a, (∃ n ∈ other, n.Covers a) ↔ covers a) →
        nets.length ≤ other.length := by
  obtain ⟨out, hout, hv, hsep, hcov⟩ := sortAndMerge_spec sort h
  obtain ⟨netss, hn, hs⟩ := mapM_toIPNets_spec hv
  obtain ⟨hcanon, hnets, hasc⟩ := forall₂_splits hv hsep hs
  have hout' : ∀ a, (∃ r ∈ out, r.Covers a) ↔ covers a := fun a => (hcov a).trans (hunion a)
  refine ⟨netss.flatten, ?_, fun a => (hnets a).trans (hout' a), hcanon, hasc, fun other hc hsame => ?_⟩
  · simp [mergeIRanges, hout, convertBatch, hn]
  · exact splits_minimal hv hsep hs hc fun a => (hsame a).trans (hout' a).symm

end Dni
