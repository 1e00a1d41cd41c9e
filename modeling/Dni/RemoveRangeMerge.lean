import Dni.RemoveRangeDamage

namespace Dni

open Bytes SortSearch

theorem read_append {h : Heap} {r : Nat} (hr : r < h.length) (ext : Heap) : read (h ++ ext) r = read h r := by
  rw [read, read, List.getD_eq_getElem?_getD, List.getD_eq_getElem?_getD, List.getElem?_append_left hr]

theorem read_append_new (h : Heap) (ip : IP) : read (h ++ [ip]) h.length = ip := by
  simp [read, List.getD_eq_getElem?_getD]

/-- In the long form an IPv4 address is one with the right upper 96 bits. -/
theorem isIPv4_iff {ip : IP} (h : ip.length = 16) : isIPv4 ip = true ↔ val ip / 2 ^ 32 = 0xffff := by
  have hsplit : val ip = val (ip.take 12) * 2 ^ 32 + val (ip.drop 12) := by
    conv_lhs => rw [← List.take_append_drop 12 ip]
    rw [val_append, List.length_drop, h]
    norm_num
  have hlt := val_lt (ip.drop 12)
  rw [List.length_drop, h] at hlt
  have hlt : val (ip.drop 12) < 2 ^ 32 := by norm_num at hlt ⊢; exact hlt
  have hval : val ip / 2 ^ 32 = val (ip.take 12) := by
    rw [hsplit]
    omega
  have hpre : val v4InV6Prefix = 0xffff := by decide
  rw [hval, ← hpre]
  simp only [isIPv4, h, Bool.or_eq_true, beq_iff_eq, Bool.and_eq_true]
  constructor
  · rintro (hc | ⟨_, hc⟩)
    · omega
    · rw [hc]
  · intro hc
    exact Or.inr ⟨trivial, val_inj (by simp [h, v4InV6Prefix]) hc⟩

/-- The last address of an IPv4 network is an IPv4 address in the same form. -/
theorem lastIP_isIPv4 {a m last : IP} (hc : NetIPNet.Canonical ⟨a, m⟩) (ha : isIPv4 a = true)
    (hl : lastIP ⟨a, m⟩ = some last) : last.length = a.length ∧ isIPv4 last = true := by
  obtain ⟨hf, k, hk, hm, hdvd⟩ := hc
  dsimp only at hf hk hm hdvd
  subst hm
  obtain ⟨last', hl', hlen, hv⟩ := lastIP_spec hf hk hdvd
  obtain rfl : last' = last := Option.some.inj (hl'.symm.trans hl)
  refine ⟨hlen, ?_⟩
  rcases hf with h4 | h16
  · simp [isIPv4, hlen, h4]
  · rw [isIPv4_iff h16] at ha
    rw [isIPv4_iff (hlen.trans h16)]
    obtain ⟨q, hq⟩ := hdvd
    have hp := Nat.two_pow_pos k
    have hk32 : k ≤ 32 := by
      by_contra hgt
      obtain ⟨j, rfl⟩ : ∃ j, k = 33 + j := ⟨k - 33, by omega⟩
      have he : val a = 2 ^ 33 * (2 ^ j * q) := by rw [hq, pow_add, Nat.mul_assoc]
      omega
    obtain ⟨j, hj⟩ : ∃ j, 2 ^ 32 = 2 ^ k * j := ⟨2 ^ (32 - k), by rw [← pow_add]; congr 1; omega⟩
    have hdiv : (2 ^ k * q + (2 ^ k - 1)) / 2 ^ 32 = 2 ^ k * q / 2 ^ 32 := by
      rw [hj, ← Nat.div_div_eq_div_mul, ← Nat.div_div_eq_div_mul, Nat.mul_add_div hp,
        Nat.div_eq_of_lt (show 2 ^ k - 1 < 2 ^ k by omega), Nat.add_zero, Nat.mul_div_cancel_left _ hp]
    have hlast : val last' = 2 ^ k * q + (2 ^ k - 1) := by omega
    rw [hlast, hdiv, ← hq, ha]

/-- The ranges made from the caller's list: their starts are arrays of the caller, and their ends
are either that too or new ones. -/
structure Ranged (base lo : Nat) (h : Heap) (l : List (IRange IP)) (rs : List (Range Nat)) : Prop where
  start : ∀ r ∈ rs, r.start < base
  stop : ∀ r ∈ rs, r.stop < base ∨ lo ≤ r.stop ∧ r.stop < h.length
  ranges : l.mapM IRange.toRange = some (rs.map (Range.map (read h)))

theorem toRangesAt_spec {n : Nat} {h₀ : Heap} {l : List (IRange Nat)} (hin : HeldIn n h₀ l) (ext : Heap)
    (hp : Plain n (h₀ ++ ext)) :
    ∃ ext' rs, toRangesAt (h₀ ++ ext) l = some (h₀ ++ ext ++ ext', rs) ∧ Plain n (h₀ ++ ext ++ ext') ∧
      Ranged h₀.length (h₀ ++ ext).length (h₀ ++ ext ++ ext') (l.map (IRange.map (read h₀))) rs := by
  induction l generalizing ext with
  | nil =>
    refine ⟨[], [], by simp [toRangesAt], by simpa using hp, ⟨by simp, by simp, rfl⟩⟩
  | cons i l ih =>
    have hin' : HeldIn n h₀ l := ⟨hin.arrays, fun j hj => hin.refs j (by simp [hj]),
      fun j hj => hin.valid j (by simp [hj])⟩
    have hrefs := hin.refs i (by simp)
    have hvalid := hin.valid i (by simp)
    have hkeep : ∀ {a}, a < h₀.length → ∀ e, read (h₀ ++ ext ++ e) a = read h₀ a := fun ha e => by
      rw [List.append_assoc, read_append ha]
    cases i with
    | ip a =>
      have ha := hrefs a (by simp [IRange.refs])
      obtain ⟨ext', rs, hto, hp', hr⟩ := ih hin' ext hp
      refine ⟨ext', ⟨a, a⟩ :: rs, by simp [toRangesAt, toRangeAt, hto], hp', ?_, ?_, ?_⟩
      · exact List.forall_mem_cons.mpr ⟨ha, hr.start⟩
      · exact List.forall_mem_cons.mpr ⟨Or.inl ha, hr.stop⟩
      · simp only [List.map_cons, List.mapM_cons, IRange.map, IRange.toRange, hr.ranges, Range.map, hkeep ha,
          Option.bind_eq_bind, Option.bind_some, Option.pure_def]
    | range r =>
      have h1 := hrefs r.start (by simp [IRange.refs])
      have h2 := hrefs r.stop (by simp [IRange.refs])
      obtain ⟨ext', rs, hto, hp', hr⟩ := ih hin' ext hp
      refine ⟨ext', r :: rs, by simp [toRangesAt, toRangeAt, hto], hp', ?_, ?_, ?_⟩
      · exact List.forall_mem_cons.mpr ⟨h1, hr.start⟩
      · exact List.forall_mem_cons.mpr ⟨Or.inl h2, hr.stop⟩
      · simp only [List.map_cons, List.mapM_cons, IRange.map, IRange.toRange, hr.ranges, Range.map, hkeep h1,
          hkeep h2, Option.bind_eq_bind, Option.bind_some, Option.pure_def]
    | net a m =>
      have ha := hrefs a (by simp [IRange.refs])
      obtain ⟨last, hl, _⟩ := lastIP_range hvalid
      obtain ⟨hlen, hv4⟩ := lastIP_isIPv4 hvalid (hin.arrays _ (read_mem ha)).2 hl
      have hp1 : Plain n (h₀ ++ (ext ++ [last])) := by
        intro ip hip
        rw [← List.append_assoc, List.mem_append] at hip
        rcases hip with hip | hip
        · exact hp ip hip
        · rw [List.mem_singleton.mp hip]
          exact ⟨hlen.trans (hin.arrays _ (read_mem ha)).1, hv4⟩
      obtain ⟨ext', rs, hto, hp', hr⟩ := ih hin' (ext ++ [last]) hp1
      have hassoc : h₀ ++ (ext ++ [last]) ++ ext' = h₀ ++ ext ++ (last :: ext') := by simp
      rw [hassoc] at hto hp' hr
      have hnew : read (h₀ ++ ext ++ (last :: ext')) (h₀ ++ ext).length = last := by
        rw [← List.singleton_append, ← List.append_assoc, read_append (by simp), read_append_new]
      refine ⟨last :: ext', ⟨a, (h₀ ++ ext).length⟩ :: rs, ?_, hp', ?_, ?_, ?_⟩
      · have hread : read (h₀ ++ ext) a = read h₀ a := read_append ha ext
        have hto' : toRangesAt (h₀ ++ ext ++ [last]) l = some (h₀ ++ ext ++ (last :: ext'), rs) := by
          rw [← hto, List.append_assoc]
        simp only [toRangesAt, toRangeAt, hread, hl, Option.map_some, Option.bind_eq_bind,
          Option.bind_some, hto', Option.pure_def]
      · exact List.forall_mem_cons.mpr ⟨ha, hr.start⟩
      · refine List.forall_mem_cons.mpr ⟨Or.inr ⟨le_rfl, by simp⟩, fun r hrr => ?_⟩
        refine (hr.stop r hrr).imp_right fun hb => ⟨?_, hb.2⟩
        have := hb.1
        simp only [List.length_append, List.length_singleton] at this ⊢
        omega
      · have hread : read (h₀ ++ ext ++ (last :: ext')) a = read h₀ a := hkeep ha _
        simp only [List.map_cons, List.mapM_cons, IRange.map, IRange.toRange, hl, hr.ranges, Range.map, hread,
          hnew, Option.map_some, Option.bind_eq_bind, Option.bind_some, Option.pure_def]

/-- Merging takes the end points of its results from its inputs. -/
theorem mergeLoop_ends {ρ : Type} (rd : ρ → IP) {fl : Nat} {cur : Range ρ} {rest : List (Range ρ)}
    {P Q : ρ → Prop} (hs : ∀ r ∈ cur :: rest, P r.start) (hq : ∀ r ∈ cur :: rest, Q r.stop) :
    ∀ r ∈ mergeLoop rd fl cur rest, P r.start ∧ Q r.stop := by
  induction rest generalizing fl cur with
  | nil =>
    intro r hr
    rw [mergeLoop, List.mem_singleton] at hr
    subst hr
    exact ⟨hs r (by simp), hq r (by simp)⟩
  | cons now rest ih =>
    have hskip : ∀ r ∈ cur :: mergeLoop rd (rd now.start).length now rest, P r.start ∧ Q r.stop := by
      intro r hr
      rcases List.mem_cons.mp hr with rfl | hr
      · exact ⟨hs r (by simp), hq r (by simp)⟩
      · exact ih (fun x hx => hs x (List.mem_cons_of_mem _ hx))
          (fun x hx => hq x (List.mem_cons_of_mem _ hx)) r hr
    intro r hr
    rw [mergeLoop] at hr
    split at hr
    next => exact hskip r hr
    next hfl =>
      split at hr
      next =>
        refine ih (fun x hx => ?_) (fun x hx => ?_) r hr
        · rcases List.mem_cons.mp hx with rfl | hx
          · split <;> exact hs cur (by simp)
          · exact hs x (by simp [hx])
        · rcases List.mem_cons.mp hx with rfl | hx
          · split
            · exact hq now (by simp)
            · exact hq cur (by simp)
          · exact hq x (by simp [hx])
      next =>
        rw [not_not] at hfl
        exact hskip r (hfl ▸ hr)

theorem mergeRanges_ends {ρ : Type} (rd : ρ → IP) (sort : Sorter (rangeLess rd)) {rs : List (Range ρ)}
    {P Q : ρ → Prop} (hs : ∀ r ∈ rs, P r.start) (hq : ∀ r ∈ rs, Q r.stop) :
    ∀ r ∈ mergeRanges rd sort rs, P r.start ∧ Q r.stop := by
  have hperm := sort.perm rs
  unfold mergeRanges
  cases hrun : sort.run rs with
  | nil => simp
  | cons now rest =>
    rw [hrun] at hperm
    exact mergeLoop_ends rd (fun r hr => hs r (hperm.mem_iff.mp hr)) fun r hr => hq r (hperm.mem_iff.mp hr)

end Dni
