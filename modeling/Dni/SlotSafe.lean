import Dni.SlotParse

namespace Dni

open Access

variable {S : Nat} {mem : Nat → UInt8}

theorem slotSlice_of_le {offset n : Nat} (h : offset + n ≤ S) :
    slotSlice S offset n = pure (offset, n) := if_pos h

theorem afterHash_eq (name : List UInt8) :
    (35 ∈ name → ∃ rest, afterHash name = pure rest) ∧ (35 ∉ name → afterHash name = abort) := by
  unfold afterHash
  apply And.intro
  · intro h
    obtain ⟨xs, ys, rfl⟩ := List.append_of_mem h
    obtain ⟨x, xs', hx⟩ := List.exists_cons_of_ne_nil (List.splitOn_ne_nil 35 xs)
    obtain ⟨y, ys', hy⟩ := List.exists_cons_of_ne_nil (List.splitOn_ne_nil 35 ys)
    rw [List.splitOn_append_cons_self, hx, hy]
    cases xs' with
    | nil => exact ⟨y, rfl⟩
    | cons x' xs' => exact ⟨x', rfl⟩
  · intro h
    rw [List.splitOn_eq_singleton h]
    rfl

theorem slotValues_safe {offset : Nat} {keys : List String} (h : offset + 8 * keys.length ≤ S) :
    ∃ vs, (slotValues mem offset keys).Safe S vs := by
  induction keys generalizing offset with
  | nil => exact ⟨[], safe_pure.mpr rfl⟩
  | cons key keys ih =>
    rw [List.length_cons] at h
    obtain ⟨vs, hvs⟩ := @ih (offset + 8) (by omega)
    refine ⟨(key, little mem offset 8) :: vs, ?_⟩
    rw [slotValues, (safe_word (by omega)).bind_iff, hvs.bind_iff, safe_pure]

theorem recordsEnd_cons (offset n : Nat) (lens : List Nat) :
    recordsEnd offset (n :: lens) = recordsEnd (offset + 2 + n) lens := by
  simp only [recordsEnd, List.map_cons, List.sum_cons]
  omega

theorem le_recordsEnd (offset : Nat) (lens : List Nat) : offset ≤ recordsEnd offset lens :=
  Nat.le_add_right _ _

/-- What the packet loop needs from an offset on. -/
def HoldsPackets (S : Nat) (mem : Nat → UInt8) (count offset : Nat) : Prop :=
  ∃ lens, Records mem offset lens ∧ recordsEnd offset lens ≤ S ∧ lens.length ≤ count ∧
    (lens.length < count →
      recordsEnd offset lens + 2 ≤ S ∧ little mem (recordsEnd offset lens) 2 = 0)

theorem holdsPackets_succ {count offset : Nat} (h : offset ≤ S) :
    HoldsPackets S mem (count + 1) offset ↔ offset + 2 ≤ S ∧ (little mem offset 2 ≠ 0 →
      offset + 2 + little mem offset 2 ≤ S ∧
        HoldsPackets S mem count (offset + 2 + little mem offset 2)) := by
  apply Iff.intro
  · intro ⟨lens, hrec, hend, hcount, hstop⟩
    cases lens with
    | nil =>
      obtain ⟨hle, hzero⟩ := hstop (Nat.succ_pos count)
      exact ⟨hle, fun hne => absurd hzero hne⟩
    | cons n lens =>
      obtain ⟨hpos, hlen, hrest⟩ := hrec
      have hfrom := le_recordsEnd (offset + 2 + n) lens
      rw [recordsEnd_cons] at hend hstop
      refine ⟨by omega, fun _ => ?_⟩
      rw [hlen]
      refine ⟨by omega, lens, hrest, hend, Nat.le_of_succ_le_succ hcount, ?_⟩
      intro hlt
      exact hstop (Nat.succ_lt_succ hlt)
  · intro ⟨hle, hnext⟩
    by_cases hzero : little mem offset 2 = 0
    · exact ⟨[], trivial, h, Nat.zero_le _, fun _ => ⟨hle, hzero⟩⟩
    · obtain ⟨hfit, lens, hrec, hend, hcount, hstop⟩ := hnext hzero
      refine ⟨little mem offset 2 :: lens, ⟨Nat.pos_of_ne_zero hzero, rfl, hrec⟩, ?_, ?_, ?_⟩
      · rwa [recordsEnd_cons]
      · exact Nat.succ_le_succ hcount
      · intro hlt
        rw [recordsEnd_cons]
        exact hstop (Nat.lt_of_succ_lt_succ hlt)

/-- The packet loop is safe exactly where whole packets lie. -/
theorem slotPackets_safe_iff (count offset : Nat) (h : offset ≤ S) :
    (∃ ps, (slotPackets S mem count offset).Safe S ps) ↔ HoldsPackets S mem count offset := by
  induction count generalizing offset with
  | zero =>
    apply iff_of_true
    · exact ⟨[], safe_pure.mpr rfl⟩
    · exact ⟨[], trivial, h, Nat.le_refl _, fun hlt => absurd hlt (Nat.lt_irrefl _)⟩
  | succ count ih =>
    rw [holdsPackets_succ h, slotPackets]
    by_cases hle : offset + 2 ≤ S
    · simp only [(safe_word hle).bind_iff]
      by_cases hzero : little mem offset 2 = 0
      · simp [hzero, safe_pure, hle]
      · rw [if_neg hzero]
        by_cases hfit : offset + 2 + little mem offset 2 ≤ S
        · rw [slotSlice_of_le hfit, pure_bind, ← ih _ hfit]
          apply Iff.intro
          · intro ⟨ps, hps⟩
            obtain ⟨qs, hqs, -⟩ := safe_bind.mp hps
            exact ⟨hle, fun _ => ⟨hfit, qs, hqs⟩⟩
          · intro ⟨_, hnext⟩
            obtain ⟨-, qs, hqs⟩ := hnext hzero
            exact ⟨(offset + 2, little mem offset 2) :: qs, hqs.bind_iff.mpr (safe_pure.mpr rfl)⟩
        · rw [slotSlice, if_neg hfit, abort_bind]
          apply iff_of_false
          · intro ⟨ps, hps⟩
            exact not_safe_abort hps
          · intro ⟨_, hnext⟩
            exact hfit (hnext hzero).1
    · apply iff_of_false
      · intro ⟨ps, hps⟩
        obtain ⟨v, hv, -⟩ := safe_bind.mp hps
        exact hle ((inside_word (Nat.succ_pos 1)).mp hv.2)
      · intro ⟨hle', _⟩
        exact hle hle'

/-- Whatever the loop passes on lies in the slot, from the offset on and in order. -/
theorem slotPackets_slices {count offset : Nat} {ps : List (Nat × Nat)}
    (h : (slotPackets S mem count offset).value = some ps) :
    (∀ p ∈ ps, offset ≤ p.1 ∧ p.1 + p.2 ≤ S) ∧ ps.Pairwise fun p q => p.1 + p.2 ≤ q.1 := by
  induction count generalizing offset ps with
  | zero =>
    cases h
    simp
  | succ count ih =>
    rw [slotPackets, value_bind, value_word, Option.bind_some] at h
    by_cases hzero : little mem offset 2 = 0
    · rw [if_pos hzero] at h
      cases h
      simp
    · rw [if_neg hzero] at h
      by_cases hfit : offset + 2 + little mem offset 2 ≤ S
      · rw [slotSlice_of_le hfit, pure_bind, value_bind] at h
        obtain ⟨qs, hqs, heq⟩ := Option.bind_eq_some_iff.mp h
        cases heq
        obtain ⟨hslices, hpair⟩ := ih hqs
        apply And.intro
        · intro p hp
          rcases List.mem_cons.mp hp with rfl | hp
          · exact ⟨by omega, hfit⟩
          · have hp' := hslices p hp
            omega
        · apply List.pairwise_cons.mpr
          exact ⟨fun q hq => (hslices q hq).1, hpair⟩
      · rw [slotSlice, if_neg hfit] at h
        cases h

theorem not_safe_of_no_hash (h : 35 ∉ (List.range' 2 (little mem 0 2)).map mem) :
    (ringBufferDataParse S mem).value = none := by
  have habort := (afterHash_eq _).2 h
  rw [ringBufferDataParse, value_bind, value_word, Option.bind_some]
  generalize little mem 0 2 = n at habort ⊢
  by_cases hfit : 2 + n ≤ S
  · simp only [Nat.zero_add]
    rw [slotSlice_of_le hfit, pure_bind, value_bind, value_bytes, Option.bind_some, habort, abort_bind,
      value_abort]
  · have hslice : slotSlice S 2 n = abort := if_neg hfit
    simp only [Nat.zero_add]
    rw [hslice, abort_bind, value_abort]

/-- Up to the packets the parser stays inside any slot that has room for a name and the header. -/
theorem ringBufferDataParse_safe (hS : 162 + 256 ^ 2 ≤ S)
    (h : 35 ∈ (List.range' 2 (little mem 0 2)).map mem) (ps : List (Nat × Nat)) :
    (∃ data, (ringBufferDataParse S mem).Safe S data ∧ data.packets = ps) ↔
      (slotPackets S mem (headerCount mem) (headerEnd mem)).Safe S ps := by
  obtain ⟨nicName, hname⟩ := (afterHash_eq _).1 h
  have hn : little mem 0 2 < 256 ^ 2 := little_lt
  have hlen : (word mem 0 2).Safe S (little mem 0 2) := safe_word (by omega)
  unfold headerCount headerEnd countOffset ringBufferDataParse
  simp only [hlen.bind_iff]
  generalize little mem 0 2 = n at hname hn ⊢
  simp only [Nat.zero_add]
  have hbytes : (bytes mem 2 n).Safe S _ := safe_bytes (by omega)
  rw [slotSlice_of_le (by omega), pure_bind]
  simp only [hbytes.bind_iff]
  rw [hname, pure_bind, slotSlice_of_le (by omega), pure_bind]
  have hip : (bytes mem (2 + n) 4).Safe S _ := safe_bytes (by omega)
  have hspeed : (word mem (2 + n + 4) 8).Safe S _ := safe_word (by omega)
  have hratio : (word mem (2 + n + 4 + 8 + 8) 8).Safe S _ := safe_word (by omega)
  simp only [hip.bind_iff, hspeed.bind_iff, hratio.bind_iff]
  generalize hc : 2 + n + 4 + 8 + 8 + 8 = c
  have hcount : (word mem c 4).Safe S _ := safe_word (by omega)
  simp only [hcount.bind_iff]
  generalize little mem c 4 = count
  have hcpu : (word mem (c + 4) 8).Safe S _ := safe_word (by omega)
  obtain ⟨bw, hbw⟩ := @slotValues_safe S mem (c + 4 + 8) bwKeys (by simp [bwKeys]; omega)
  obtain ⟨tcpConn, htcp⟩ :=
    @slotValues_safe S mem (c + 4 + 8 + 8 * 4) tcpConnKeys (by simp [tcpConnKeys]; omega)
  obtain ⟨snmp, hsnmp⟩ :=
    @slotValues_safe S mem (c + 4 + 8 + 8 * 4 + 8 * 3) snmpKeys (by simp [snmpKeys]; omega)
  simp only [hcpu.bind_iff, hbw.bind_iff, htcp.bind_iff, hsnmp.bind_iff]
  apply Iff.intro
  · intro ⟨data, hdata, hps⟩
    obtain ⟨qs, hqs, heq⟩ := safe_bind.mp hdata
    cases safe_pure.mp heq
    exact hps ▸ hqs
  · intro hps
    exact ⟨_, hps.bind_iff.mpr (safe_pure.mpr rfl), rfl⟩

theorem headerEnd_le (hS : 162 + 256 ^ 2 ≤ S) : headerEnd mem ≤ S := by
  have hn : little mem 0 2 < 256 ^ 2 := little_lt
  unfold headerEnd countOffset
  omega

theorem parseSafe_iff (hS : 162 + 256 ^ 2 ≤ S) : ParseSafe S mem ↔ SlotFits S mem := by
  apply Iff.intro
  · intro ⟨data, hval, hin, _⟩
    have hhash : 35 ∈ (List.range' 2 (little mem 0 2)).map mem := by
      by_contra hno
      rw [not_safe_of_no_hash hno] at hval
      cases hval
    have hloop := (ringBufferDataParse_safe hS hhash data.packets).mp ⟨data, ⟨hval, hin⟩, rfl⟩
    exact ⟨hhash, (slotPackets_safe_iff _ _ (headerEnd_le hS)).mp ⟨_, hloop⟩⟩
  · intro ⟨hhash, hrec⟩
    obtain ⟨ps, hps⟩ := (slotPackets_safe_iff _ _ (headerEnd_le hS)).mpr hrec
    obtain ⟨data, hdata, rfl⟩ := (ringBufferDataParse_safe hS hhash ps).mpr hps
    obtain ⟨hslices, hpair⟩ := slotPackets_slices hps.1
    exact ⟨data, hdata.1, hdata.2, fun p hp => (hslices p hp).2, hpair⟩

/-- Parsing a slot is safe exactly for slots whose name has a hash and whose packets are whole. -/
theorem ringBufferDataParse_safe_iff (mem : Nat → UInt8) :
    ParseSafe slotSize mem ↔ SlotFits slotSize mem :=
  parseSafe_iff (by decide)

example : SlotFits slotSize fun a => [3, 0, 97, 35, 98].getD a 0 :=
  ⟨by decide, [], trivial, by decide, by decide, by decide⟩

/-- The parser panics on an empty slot: its name is empty. -/
theorem ringBufferDataParse_empty : ¬ ParseSafe slotSize fun _ => 0 := by
  intro ⟨data, hval, _⟩
  rw [not_safe_of_no_hash (by decide)] at hval
  cases hval

end Dni
