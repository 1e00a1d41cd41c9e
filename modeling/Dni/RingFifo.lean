import Dni.RingBuffer

namespace Dni

open Ring

variable {S : Nat}

theorem advance_toNat {size : Nat} {p : UInt32} (hs : size < 2 ^ 32) (h : p.toNat + S ≤ size) :
    (advance S size p).toNat = place size p.toNat S := by
  have hsum : (p + UInt32.ofNat S).toNat = p.toNat + S := by
    rw [UInt32.toNat_add, UInt32.toNat_ofNat', Nat.add_mod_mod]
    exact Nat.mod_eq_of_lt (Nat.lt_of_le_of_lt h hs)
  rw [advance, UInt32.toNat_mod, hsum, UInt32.toNat_ofNat', Nat.mod_eq_of_lt hs, place_eq_mod h]

theorem used_toNat {sm : ShareMemory} (hs : sm.memorySize < 2 ^ 32) :
    sm.used.toNat =
      (sm.tail.toNat + 2 ^ 32 - sm.head.toNat + sm.memorySize) % 2 ^ 32 % sm.memorySize := by
  have hh := sm.head.toNat_lt
  rw [ShareMemory.used, UInt32.toNat_mod, UInt32.toNat_add, UInt32.toNat_sub, UInt32.toNat_ofNat',
    Nat.mod_eq_of_lt hs]
  congr 1
  omega

/-- Read finds less than a slot where less than a slot is pending, and where the sum wraps. -/
theorem used_lt_iff {sm : ShareMemory} (hs : sm.memorySize < 2 ^ 32)
    (hh : sm.head.toNat < sm.memorySize) (ht : sm.tail.toNat < sm.memorySize) :
    sm.used.toNat < S ↔ pending sm.memorySize sm.head.toNat sm.tail.toNat < S ∨
      Wraps S sm.memorySize sm.head.toNat sm.tail.toNat := by
  rw [used_toNat hs]
  generalize sm.tail.toNat = t at *
  generalize sm.head.toNat = h at *
  generalize sm.memorySize = size at *
  unfold pending Wraps
  by_cases hle : h ≤ t
  · by_cases hw : t - h + size < 2 ^ 32
    · have hm : (t + 2 ^ 32 - h + size) % 2 ^ 32 = t - h + size := by omega
      rw [hm, Nat.add_mod_right, Nat.mod_eq_of_lt (by omega), if_pos hle]
      omega
    · have hm : (t + 2 ^ 32 - h + size) % 2 ^ 32 = t - h + size - 2 ^ 32 := by omega
      rw [hm, Nat.mod_eq_of_lt (by omega), if_pos hle]
      omega
  · have hm : (t + 2 ^ 32 - h + size) % 2 ^ 32 = t + size - h := by omega
    rw [hm, Nat.mod_eq_of_lt (by omega), if_neg hle]
    omega

theorem used_lt_slot_iff {sm : ShareMemory} (hS : S < 2 ^ 32) :
    sm.used < UInt32.ofNat S ↔ sm.used.toNat < S := by
  rw [UInt32.lt_iff_toNat_lt, UInt32.toNat_ofNat', Nat.mod_eq_of_lt hS]

/-- Writing a slot leaves the slots apart from it as they were. -/
theorem slot_write_apart {sm : ShareMemory} {p : Nat} (data : List UInt8)
    (h : p + S ≤ sm.tail.toNat ∨ sm.tail.toNat + S ≤ p) :
    (sm.write S data).slot S p = sm.slot S p := by
  apply List.map_congr_left
  intro i hi
  have hlt := List.mem_range.mp hi
  exact if_neg (by omega)

/-- Write copies its data into the slot at the tail. -/
theorem slot_write (sm : ShareMemory) (data : List UInt8) :
    (sm.write S data).slot S sm.tail.toNat = sm.content S data := by
  apply List.ext_getElem?
  intro i
  have hslot : ∀ sm' : ShareMemory, (sm'.slot S sm.tail.toNat)[i]? =
      if i < S then some (sm'.mem (sm.tail.toNat + i)) else none := by
    intro sm'
    rw [ShareMemory.slot, List.getElem?_map]
    split
    next hlt => rw [List.getElem?_range hlt, Option.map_some]
    next hge => rw [List.getElem?_eq_none (by simpa using hge), Option.map_none]
  have hlen : (data.take S).length = min S data.length := List.length_take
  rw [hslot, ShareMemory.content]
  by_cases hi : i < min S data.length
  · have hdata : i < data.length := by omega
    rw [if_pos (by omega), List.getElem?_append_left (by omega), List.getElem?_take_of_lt (by omega),
      List.getElem?_eq_getElem hdata]
    show some (if _ then _ else _) = _
    rw [if_pos (by omega), Nat.add_sub_cancel_left, List.getElem?_eq_getElem hdata, Option.getD_some]
  · rw [List.getElem?_append_right (by omega), List.getElem?_drop, hlen]
    by_cases hS : i < S
    · rw [show data.length + (i - min S data.length) = i by omega, hslot, if_pos hS, if_pos hS]
      show some (if _ then _ else _) = _
      rw [if_pos (by omega), Nat.add_sub_cancel_left, List.getElem?_eq_none (by omega), Option.getD_none]
    · rw [if_neg hS, List.getElem?_eq_none]
      simp only [ShareMemory.slot, List.length_map, List.length_range]
      omega

theorem step_read {r : RingRun} {p : Nat} {sm : ShareMemory} (h : r.sm.read S = some (p, sm)) :
    r.step S .read =
      { r with sm := sm, read := r.read ++ [r.sm.slot S p], accessed := r.accessed ++ [p] } := by
  simp only [RingRun.step, h]

theorem step_read_none {r : RingRun} (h : r.sm.read S = none) : r.step S .read = r := by
  simp only [RingRun.step, h]

/-- The unread slots lie one after the other from the head on, inside the buffer and short of a full
turn, and hold what was written. -/
structure RingInv (S : Nat) (r : RingRun) (u : Nat) : Prop where
  slot_pos : 0 < S
  slot_lt : S < 2 ^ 32
  size_lt : r.sm.memorySize < 2 ^ 32
  head_lt : r.sm.head.toNat < r.sm.memorySize
  order : r.read = r.written.take r.read.length
  count : r.written.length = r.read.length + u
  places : r.places.length = r.written.length
  short : u * S < r.sm.memorySize
  tail : r.sm.tail.toNat = place r.sm.memorySize r.sm.head.toNat (u * S)
  placed : ∀ j < u, r.places[r.read.length + j]? = some (place r.sm.memorySize r.sm.head.toNat (j * S))
  fits : ∀ j < u, place r.sm.memorySize r.sm.head.toNat (j * S) + S ≤ r.sm.memorySize
  holds : ∀ j < u, r.written[r.read.length + j]? =
    some (r.sm.slot S (place r.sm.memorySize r.sm.head.toNat (j * S)))
  inside : ∀ p ∈ r.accessed, p + S ≤ r.sm.memorySize

namespace RingInv

variable {r : RingRun} {u : Nat}

theorem tail_lt (h : RingInv S r u) : r.sm.tail.toNat < r.sm.memorySize := by
  rw [h.tail]
  exact place_lt h.head_lt (Nat.le_of_lt h.short)

theorem pending_eq (h : RingInv S r u) :
    pending r.sm.memorySize r.sm.head.toNat r.sm.tail.toNat = u * S := by
  rw [h.tail]
  exact pending_place h.head_lt h.short

theorem used_lt_iff (h : RingInv S r u) :
    r.sm.used < UInt32.ofNat S ↔
      u = 0 ∨ Wraps S r.sm.memorySize r.sm.head.toNat r.sm.tail.toNat := by
  have hpos := h.slot_pos
  have hu : u * S < S ↔ u = 0 := by
    rcases Nat.eq_zero_or_pos u with h0 | h0
    · simp [h0, hpos]
    · have hle := Nat.le_mul_of_pos_left S h0
      omega
  rw [used_lt_slot_iff h.slot_lt, Dni.used_lt_iff h.size_lt h.head_lt h.tail_lt, h.pending_eq, hu]

/-- Read reports an empty ring if nothing is unread, or if the sum wraps. -/
theorem read_none_iff (h : RingInv S r u) :
    r.sm.read S = none ↔ u = 0 ∨ Wraps S r.sm.memorySize r.sm.head.toNat r.sm.tail.toNat := by
  simp [ShareMemory.read, ← h.used_lt_iff]

theorem read_eq_iff (h : RingInv S r u) : r.read = r.written ↔ u = 0 := by
  have hc := h.count
  apply Iff.intro
  · intro he
    have hl := congrArg List.length he
    omega
  · intro h0
    rw [h.order, List.take_of_length_le (by omega)]

/-- With the invariant, the queue can only fail in telling empty from full. -/
theorem fifo_iff (h : RingInv S r u) :
    r.Fifo S ↔ ¬ Wraps S r.sm.memorySize r.sm.head.toNat r.sm.tail.toNat := by
  apply Iff.intro
  · intro hf hw
    have hz := h.read_eq_iff.mp (hf.empty.mp (h.read_none_iff.mpr (Or.inr hw)))
    have htail := h.tail
    rw [hz, Nat.zero_mul, place_zero h.head_lt] at htail
    obtain ⟨_, hge, _⟩ := hw
    have := h.size_lt
    omega
  · intro hw
    refine ⟨?_, ?_, ?_, h.inside⟩
    · rw [h.order]
      exact List.take_prefix _ _
    · intro k hk c p hc hp
      have hlen : k < r.written.length := (List.getElem?_eq_some_iff.mp hc).1
      have hcount := h.count
      obtain ⟨j, hj⟩ : ∃ j, k = r.read.length + j := ⟨k - r.read.length, by omega⟩
      subst hj
      rw [h.placed j (by omega)] at hp
      rw [h.holds j (by omega)] at hc
      cases Option.some.inj hp
      exact Option.some.inj hc
    · rw [h.read_none_iff, h.read_eq_iff]
      exact or_iff_left hw

/-- A write into a slot that fits, short of a full turn, adds one unread slot. -/
theorem write (h : RingInv S r u) (data : List UInt8) (hfit : r.sm.tail.toNat + S ≤ r.sm.memorySize)
    (hshort : (u + 1) * S < r.sm.memorySize) : RingInv S (r.step S (.write data)) (u + 1) := by
  have hc := h.count
  have hp := h.places
  have hsucc : (u + 1) * S = u * S + S := Nat.succ_mul u S
  have hplace : place r.sm.memorySize r.sm.head.toNat (u * S) = r.sm.tail.toNat := h.tail.symm
  have hadv : (advance S r.sm.memorySize r.sm.tail).toNat =
      place r.sm.memorySize r.sm.head.toNat ((u + 1) * S) := by
    rw [advance_toNat h.size_lt hfit, hsucc, ← place_place h.head_lt (by omega), hplace]
  have hkeep : ∀ j < u, (r.sm.write S data).slot S (place r.sm.memorySize r.sm.head.toNat (j * S)) =
      r.sm.slot S (place r.sm.memorySize r.sm.head.toNat (j * S)) := by
    intro j hj
    have hle : j * S + S ≤ u * S := by
      rw [← Nat.succ_mul]
      exact Nat.mul_le_mul_right _ hj
    have hapart := @slots_apart r.sm.memorySize r.sm.head.toNat (j * S) (u * S) S hle
      (by omega)
    rw [hplace] at hapart
    exact slot_write_apart data hapart
  refine ⟨h.slot_pos, h.slot_lt, h.size_lt, h.head_lt, ?_, ?_, ?_, hshort, hadv, ?_, ?_, ?_, ?_⟩
  · change r.read = (r.written ++ [_]).take r.read.length
    rw [List.take_append_of_le_length (by omega)]
    exact h.order
  · change (r.written ++ [_]).length = r.read.length + (u + 1)
    rw [List.length_append, List.length_singleton, hc, Nat.add_assoc]
  · change (r.places ++ [_]).length = (r.written ++ [_]).length
    rw [List.length_append, List.length_append, List.length_singleton, List.length_singleton, hp]
  · intro j hj
    change (r.places ++ [r.sm.tail.toNat])[r.read.length + j]? = _
    rcases Nat.lt_succ_iff_lt_or_eq.mp hj with hj | hj
    · rw [List.getElem?_append_left (by omega)]
      exact h.placed j hj
    · subst hj
      rw [List.getElem?_append_right (by omega), show r.read.length + j - r.places.length = 0 by omega,
        List.getElem?_cons_zero]
      exact congrArg some h.tail
  · intro j hj
    rcases Nat.lt_succ_iff_lt_or_eq.mp hj with hj | hj
    · exact h.fits j hj
    · subst hj
      change place r.sm.memorySize r.sm.head.toNat (j * S) + S ≤ r.sm.memorySize
      rwa [hplace]
  · intro j hj
    change (r.written ++ [r.sm.content S data])[r.read.length + j]? =
      some ((r.sm.write S data).slot S (place r.sm.memorySize r.sm.head.toNat (j * S)))
    rcases Nat.lt_succ_iff_lt_or_eq.mp hj with hj | hj
    · rw [List.getElem?_append_left (by omega), h.holds j hj, hkeep j hj]
    · subst hj
      rw [List.getElem?_append_right (by omega), show r.read.length + j - r.written.length = 0 by omega,
        List.getElem?_cons_zero, hplace, slot_write]
  · intro p hp
    rcases List.mem_append.mp hp with hp | hp
    · exact h.inside p hp
    · rw [List.mem_singleton] at hp
      exact hp ▸ hfit

/-- Reading takes the first unread slot off. -/
theorem read (h : RingInv S r (u + 1))
    (hw : ¬ Wraps S r.sm.memorySize r.sm.head.toNat r.sm.tail.toNat) :
    (r.step S .read).sm.tail = r.sm.tail ∧ (r.step S .read).sm.memorySize = r.sm.memorySize ∧
      (r.step S .read).sm.head.toNat = place r.sm.memorySize r.sm.head.toNat S ∧
      RingInv S (r.step S .read) u := by
  have hc := h.count
  have hp := h.places
  have hshort := h.short
  have hsucc : (u + 1) * S = S + u * S := by rw [Nat.succ_mul, Nat.add_comm]
  have hzero : place r.sm.memorySize r.sm.head.toNat (0 * S) = r.sm.head.toNat := by
    rw [Nat.zero_mul, place_zero h.head_lt]
  have hfit := h.fits 0 (by omega)
  rw [hzero] at hfit
  have hadv := advance_toNat h.size_lt hfit
  have hused : ¬ r.sm.used < UInt32.ofNat S := by
    intro hlt
    rcases h.used_lt_iff.mp hlt with h0 | h0
    · omega
    · exact hw h0
  have hstep := step_read (if_neg hused : r.sm.read S = _)
  have hnext : ∀ j, j ≤ u →
      place r.sm.memorySize (advance S r.sm.memorySize r.sm.head).toNat (j * S) =
        place r.sm.memorySize r.sm.head.toNat ((j + 1) * S) := by
    intro j hj
    have hle : j * S ≤ u * S := Nat.mul_le_mul_right _ hj
    rw [hadv, place_place h.head_lt (by omega), Nat.succ_mul, Nat.add_comm]
  have hidx : ∀ j, (r.read ++ [r.sm.slot S r.sm.head.toNat]).length + j = r.read.length + (j + 1) := by
    intro j
    simp only [List.length_append, List.length_singleton]
    omega
  rw [hstep]
  refine ⟨rfl, rfl, hadv, h.slot_pos, h.slot_lt, h.size_lt, ?_, ?_, ?_, hp, ?_, ?_, ?_, ?_, ?_, ?_⟩
  · exact hadv ▸ place_lt h.head_lt (by omega)
  · have hhead := h.holds 0 (by omega)
    rw [hzero, Nat.add_zero] at hhead
    obtain ⟨hlt, hval⟩ := List.getElem?_eq_some_iff.mp hhead
    change r.read ++ [r.sm.slot S r.sm.head.toNat] =
      r.written.take (r.read ++ [r.sm.slot S r.sm.head.toNat]).length
    rw [List.length_append, List.length_singleton, List.take_succ_eq_append_getElem hlt, hval,
      ← h.order]
  · simp only [List.length_append, List.length_singleton]
    omega
  · change u * S < r.sm.memorySize
    omega
  · change r.sm.tail.toNat = _
    rw [hnext u (Nat.le_refl u)]
    exact h.tail
  · intro j hj
    rw [hidx, hnext j (Nat.le_of_lt hj)]
    exact h.placed (j + 1) (by omega)
  · intro j hj
    change place r.sm.memorySize (advance S r.sm.memorySize r.sm.head).toNat (j * S) + S ≤ _
    rw [hnext j (Nat.le_of_lt hj)]
    exact h.fits (j + 1) (by omega)
  · intro j hj
    rw [hidx, hnext j (Nat.le_of_lt hj)]
    exact h.holds (j + 1) (by omega)
  · intro p hmem
    rcases List.mem_append.mp hmem with hmem | hmem
    · exact h.inside p hmem
    · rw [List.mem_singleton] at hmem
      exact hmem ▸ hfit

/-- After a write that turns the ring full, the pointers cannot tell it from an empty one. -/
theorem write_full (h : RingInv S r u) (data : List UInt8)
    (hfit : r.sm.tail.toNat + S ≤ r.sm.memorySize) (hfull : r.sm.memorySize ≤ u * S + S) :
    ¬ (r.step S (.write data)).Fifo S := by
  have hsize := h.size_lt
  have hplace : place r.sm.memorySize r.sm.head.toNat (u * S) = r.sm.tail.toNat := h.tail.symm
  have hadv := advance_toNat h.size_lt hfit
  have htail : (r.sm.write S data).tail.toNat < (r.sm.write S data).memorySize := by
    change (advance S r.sm.memorySize r.sm.tail).toNat < r.sm.memorySize
    rw [hadv]
    exact place_lt h.tail_lt (by omega)
  have hpend := @pending_full r.sm.memorySize r.sm.head.toNat (u * S) S h.head_lt h.short hfull
    (by rwa [hplace])
  rw [hplace, ← hadv] at hpend
  have hused : (r.sm.write S data).used < UInt32.ofNat S := by
    rw [used_lt_slot_iff h.slot_lt, @Dni.used_lt_iff S (r.sm.write S data) hsize h.head_lt htail]
    exact Or.inl hpend
  intro hf
  have heq : r.read = r.written ++ [_] := hf.empty.mp (if_pos hused)
  have hlen := congrArg List.length heq
  have hc := h.count
  rw [List.length_append, List.length_singleton] at hlen
  omega

theorem write_calm_iff (h : RingInv S r u) (data : List UInt8) :
    Calm S r.sm (.write data) ↔ (r.step S (.write data)).Fifo S := by
  have hsucc : (u + 1) * S = u * S + S := Nat.succ_mul u S
  have hpend := h.pending_eq
  apply Iff.intro
  · intro ⟨hfit, hshort, hw⟩
    rw [hpend, ← hsucc] at hshort
    rw [(h.write data hfit hshort).fifo_iff]
    rwa [← advance_toNat h.size_lt hfit] at hw
  · intro hf
    have hfit : r.sm.tail.toNat + S ≤ r.sm.memorySize :=
      hf.inside r.sm.tail.toNat (List.mem_append_right _ (List.mem_singleton_self _))
    have hshort : (u + 1) * S < r.sm.memorySize := by
      have hfull := mt (h.write_full data hfit) (not_not_intro hf)
      omega
    refine ⟨hfit, by omega, ?_⟩
    rw [(h.write data hfit hshort).fifo_iff] at hf
    rwa [← advance_toNat h.size_lt hfit]

theorem head_ne_tail (h : RingInv S r (u + 1)) : r.sm.head ≠ r.sm.tail := by
  intro he
  have hpend := h.pending_eq
  have hpos : 0 < (u + 1) * S := Nat.mul_pos (Nat.succ_pos u) h.slot_pos
  rw [he, pending_self] at hpend
  omega

theorem head_eq_tail (h : RingInv S r 0) : r.sm.head = r.sm.tail := by
  have ht := h.tail
  rw [Nat.zero_mul, place_zero h.head_lt] at ht
  exact UInt32.toNat_inj.mp ht.symm

theorem read_calm_iff (h : RingInv S r u)
    (hw : ¬ Wraps S r.sm.memorySize r.sm.head.toNat r.sm.tail.toNat) :
    Calm S r.sm .read ↔ (r.step S .read).Fifo S := by
  cases u with
  | zero =>
    rw [step_read_none (h.read_none_iff.mpr (Or.inl rfl)), h.fifo_iff]
    exact iff_of_true (fun hne => absurd h.head_eq_tail hne) hw
  | succ u =>
    obtain ⟨htail, hsize, hhead, hnext⟩ := h.read hw
    rw [hnext.fifo_iff, htail, hsize, hhead]
    apply Iff.intro
    · intro hc
      exact hc h.head_ne_tail
    · intro hc _
      exact hc

theorem calm_iff (h : RingInv S r u)
    (hw : ¬ Wraps S r.sm.memorySize r.sm.head.toNat r.sm.tail.toNat) (op : RingOp) :
    Calm S r.sm op ↔ (r.step S op).Fifo S := by
  cases op with
  | write data => exact h.write_calm_iff data
  | read => exact h.read_calm_iff hw

/-- A calm call keeps the invariant, for one slot more or less. -/
theorem step (h : RingInv S r u) (hw : ¬ Wraps S r.sm.memorySize r.sm.head.toNat r.sm.tail.toNat)
    {op : RingOp} (hc : Calm S r.sm op) : ∃ v, RingInv S (r.step S op) v := by
  cases op with
  | write data =>
    obtain ⟨hfit, hshort, _⟩ := hc
    have hsucc : (u + 1) * S = u * S + S := Nat.succ_mul u S
    rw [h.pending_eq, ← hsucc] at hshort
    exact ⟨u + 1, h.write data hfit hshort⟩
  | read =>
    cases u with
    | zero =>
      rw [step_read_none (h.read_none_iff.mpr (Or.inl rfl))]
      exact ⟨0, h⟩
    | succ u => exact ⟨u, (h.read hw).2.2.2⟩

end RingInv

theorem FifoRun.fifo {r : RingRun} {ops : List RingOp} (h : FifoRun S r ops) : r.Fifo S := by
  cases ops with
  | nil => exact h
  | cons op ops => exact h.1

theorem RingInv.fifoRun_iff {r : RingRun} {u : Nat} (h : RingInv S r u)
    (hw : ¬ Wraps S r.sm.memorySize r.sm.head.toNat r.sm.tail.toNat) (ops : List RingOp) :
    FifoRun S r ops ↔ CalmRun S r ops := by
  induction ops generalizing r u with
  | nil => exact iff_of_true (h.fifo_iff.mpr hw) trivial
  | cons op ops ih =>
    have hcalm := h.calm_iff hw op
    apply Iff.intro
    · intro hf
      have hnow := hf.2.fifo
      have hc := hcalm.mpr hnow
      obtain ⟨v, hv⟩ := h.step hw hc
      exact ⟨hc, (ih hv (hv.fifo_iff.mp hnow)).mp hf.2⟩
    · intro ⟨hc, hrest⟩
      obtain ⟨v, hv⟩ := h.step hw hc
      exact ⟨h.fifo_iff.mpr hw, (ih hv (hv.fifo_iff.mp (hcalm.mp hc))).mpr hrest⟩

theorem RingRun.Start.inv {r : RingRun} (hpos : 0 < S) (h : r.Start S) : RingInv S r 0 := by
  have hroom := h.room
  have hsize := h.size_lt
  have hhead := h.head_lt
  have hread := h.read
  have hwritten := h.written
  have hplaces := h.places
  have hacc := h.accessed
  refine ⟨hpos, by omega, hsize, hhead, by simp [hread, hwritten], by simp [hread, hwritten],
    by simp [hplaces, hwritten], by omega, ?_, by simp, by simp, by simp, by simp [hacc]⟩
  rw [h.tail, Nat.zero_mul, place_zero hhead]

theorem slotSize_pos : 0 < slotSize := by decide

/-- The ring is a queue exactly as long as every call is calm. -/
theorem shareMemory_fifo_iff {r : RingRun} (h : r.Start slotSize) (ops : List RingOp) :
    FifoRun slotSize r ops ↔ CalmRun slotSize r ops := by
  have hinv := h.inv slotSize_pos
  apply hinv.fifoRun_iff
  intro ⟨_, hge, _⟩
  have hsize := h.size_lt
  rw [h.tail] at hge
  omega

def twoSlots : RingRun :=
  { sm := { memorySize := 2 * slotSize, head := 0, tail := 0, mem := fun _ => 0 } }

theorem twoSlots_start : twoSlots.Start slotSize :=
  ⟨by decide, by decide, by decide, rfl, rfl, rfl, rfl, rfl⟩

theorem shareMemory_fifo_iff_twoSlots :
    twoSlots.Start slotSize ∧ FifoRun slotSize twoSlots [.write [1, 2, 3], .read, .read] := by
  refine ⟨twoSlots_start, (shareMemory_fifo_iff twoSlots_start _).mpr ⟨?_, ?_, ?_, trivial⟩⟩
  · refine ⟨by decide, by decide, ?_⟩
    intro ⟨_, hge, _⟩
    exact absurd hge (by decide)
  · intro _ ⟨_, hge, _⟩
    exact absurd hge (by decide +kernel)
  · intro hne
    exact absurd rfl hne

/-- Two slots written to an empty ring of two: the tail is back at the head. -/
theorem shareMemory_full_is_empty :
    twoSlots.Start slotSize ∧ ¬ FifoRun slotSize twoSlots [.write [1], .write [2]] := by
  apply And.intro twoSlots_start
  intro hf
  have hused : (((twoSlots.sm.write slotSize [1]).write slotSize [2]).used < UInt32.ofNat slotSize) := by
    decide +kernel
  have hread : [] = [_, _] := hf.2.2.empty.mp (if_pos hused)
  exact absurd hread (by simp)

end Dni
