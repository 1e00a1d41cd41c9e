import Dni.SyncSet

namespace Dni.Cpp

variable {α : Type}

namespace Stream

/-- The receiving side takes everything, and nothing is missing. -/
structure Sound (s : Stream α) : Prop where
  exact : s.Exact
  done : s.impl.done = false

theorem addData_queue (m : InputStreamManager α) (data : List (Datum α)) :
    (m.addData data).queue = m.queue ++ data := by
  induction data generalizing m with
  | nil => simp [InputStreamManager.addData]
  | cons d data ih =>
    have hnext := ih (m.push d)
    simpa [InputStreamManager.addData, InputStreamManager.push] using hnext

theorem Sound.addData {s : Stream α} (h : s.Sound) (data : List (Datum α)) :
    (s.addData data).Sound := by
  refine ⟨?_, h.done⟩
  unfold Exact Stream.addData
  simp only [addData_queue, List.map_append, ← List.append_assoc]
  rw [h.exact]

theorem Sound.setNextTimestampBound {s : Stream α} (h : s.Sound) (ts : Int) :
    (s.setNextTimestampBound ts).Sound := by
  have hq : (s.manager.setNextTimestampBound ts).queue = s.manager.queue := by
    unfold InputStreamManager.setNextTimestampBound
    split
    · rfl
    · split <;> rfl
  refine ⟨?_, h.done⟩
  have he := h.exact
  unfold Exact Stream.setNextTimestampBound at *
  rwa [hq]

theorem Sound.close {s : Stream α} (h : s.Sound) : s.close.Sound := by
  have hq : s.manager.close.queue = s.manager.queue := by
    unfold InputStreamManager.close
    split <;> rfl
  refine ⟨?_, h.done⟩
  have he := h.exact
  unfold Exact Stream.close at *
  rwa [hq]

variable {bound : Int} {closed : Bool} {queued : List (Option α)}

/-- A round hands the first value over, unless it is the last of a stream at its end. -/
theorem syncLoop_cons (ts : Int) (rounds : Nat) (d : Datum α) (queue handed : List (Datum α)) :
    syncLoop ts (rounds + 1) ⟨⟨d :: queue, bound, closed⟩, ⟨handed, false⟩, queued⟩ =
      if queue = [] ∧ bound = ctimeMax then ⟨⟨queue, bound, closed⟩, ⟨handed, false⟩, queued⟩
      else syncLoop ts rounds
        ⟨⟨queue, bound, closed⟩, ⟨handed ++ [d.at (ts - 1)], false⟩, queued⟩ := by
  have hpop : (InputStreamManager.mk (d :: queue) bound closed).pop =
      some (d, ⟨queue, bound, closed⟩, queue.isEmpty && timestampDone bound) := rfl
  rw [syncLoop, hpop]
  by_cases hlast : queue = [] ∧ bound = ctimeMax
  · simp [hlast, timestampDone]
  · have hnot : (queue.isEmpty && timestampDone bound) = false := by
      simpa [timestampDone] using hlast
    simp [hnot, if_neg hlast, InputStreamImpl.addDatum]

/-- A stream that has not come to its end is handed over whole. -/
theorem syncLoop_open (ts : Int) (queue handed : List (Datum α)) (hb : bound ≠ ctimeMax) :
    syncLoop ts queue.length ⟨⟨queue, bound, closed⟩, ⟨handed, false⟩, queued⟩ =
      ⟨⟨[], bound, closed⟩, ⟨handed ++ queue.map (Datum.at · (ts - 1)), false⟩, queued⟩ := by
  induction queue generalizing handed with
  | nil => rw [List.length_nil, syncLoop, List.map_nil, List.append_nil]
  | cons d queue ih =>
    rw [List.length_cons, syncLoop_cons, if_neg (fun h => hb h.2), ih]
    simp

/-- At its end a stream keeps its last value, and nobody has it then. -/
theorem syncLoop_ended (ts : Int) (queue handed : List (Datum α)) (hne : queue ≠ [])
    (hb : bound = ctimeMax) :
    syncLoop ts queue.length ⟨⟨queue, bound, closed⟩, ⟨handed, false⟩, queued⟩ =
      ⟨⟨[], bound, closed⟩, ⟨handed ++ queue.dropLast.map (Datum.at · (ts - 1)), false⟩, queued⟩ := by
  induction queue generalizing handed with
  | nil => exact absurd rfl hne
  | cons d queue ih =>
    rw [List.length_cons, syncLoop_cons]
    cases queue with
    | nil => simp [hb]
    | cons e queue =>
      rw [if_neg (by simp), ih _ (by simp)]
      simp

/-- The loop pops until the queue is empty. -/
theorem syncLoop_queue (ts : Int) (m : InputStreamManager α) (impl : InputStreamImpl α) :
    (syncLoop ts m.queue.length ⟨m, impl, queued⟩).manager.queue = [] := by
  obtain ⟨queue, bound, closed⟩ := m
  induction queue generalizing impl with
  | nil => rfl
  | cons d queue ih =>
    have hpop : (InputStreamManager.mk (d :: queue) bound closed).pop =
        some (d, ⟨queue, bound, closed⟩, queue.isEmpty && timestampDone bound) := rfl
    rw [List.length_cons, syncLoop, hpop]
    dsimp only
    split
    next hdone => exact List.isEmpty_iff.mp (Bool.and_eq_true_iff.mp hdone).1
    next => exact ih _

theorem sync_queue (s : Stream α) : s.sync.manager.queue = [] := syncLoop_queue _ s.manager s.impl

theorem value_at (d : Datum α) (ts : Int) : (d.at ts).value = d.value := rfl

theorem Sound.sync {s : Stream α} (h : s.Sound) (ho : s.Open) : s.sync.Sound := by
  obtain ⟨⟨queue, bound, closed⟩, ⟨handed, done⟩, queued⟩ := s
  obtain ⟨he, hdone⟩ := h
  cases hdone
  rcases ho with hq | hb
  · cases hq
    exact ⟨he, rfl⟩
  · rw [Stream.sync, syncLoop_open _ queue handed hb]
    refine ⟨?_, rfl⟩
    unfold Exact at *
    rw [← he]
    simp [Function.comp_def, value_at]

/-- Syncing is exact for an open stream only: another one loses a value. -/
theorem Sound.exact_iff_open {s : Stream α} (h : s.Sound) : s.sync.Exact ↔ s.Open := by
  apply Iff.intro
  · intro hx
    by_contra hno
    obtain ⟨hne, hb⟩ := not_or.mp hno
    rw [not_not] at hb
    obtain ⟨⟨queue, bound, closed⟩, ⟨handed, done⟩, queued⟩ := s
    obtain ⟨he, hdone⟩ := h
    cases hdone
    rw [Stream.sync, syncLoop_ended _ queue handed hne hb] at hx
    have hlen := congrArg List.length (hx.trans he.symm)
    have hpos := List.length_pos_iff.mpr hne
    simp only [List.length_append, List.length_map, List.length_dropLast, List.map_nil,
      List.append_nil] at hlen hpos
    omega
  · intro ho
    exact (h.sync ho).exact

end Stream

/-- Every stream is sound. -/
def AllSound (ss : List (Stream α)) : Prop := ∀ s ∈ ss, s.Sound

theorem AllSound.modify {ss : List (Stream α)} (h : AllSound ss) (id : Nat)
    {f : Stream α → Stream α} (hf : ∀ s : Stream α, s.Sound → (f s).Sound) :
    AllSound (ss.modify id f) := by
  intro s hs
  obtain ⟨i, hi, rfl⟩ := List.mem_iff_getElem.mp hs
  rw [List.length_modify] at hi
  have hi' := h ss[i] (List.getElem_mem hi)
  rw [List.getElem_modify]
  split
  · exact hf _ hi'
  · exact hi'

theorem AllSound.map {ss : List (Stream α)} (h : AllSound ss) {f : Stream α → Stream α}
    (hf : ∀ s ∈ ss, s.Sound → (f s).Sound) : AllSound (ss.map f) := by
  intro s hs
  obtain ⟨t, ht, rfl⟩ := List.mem_map.mp hs
  exact hf t ht (h t ht)

theorem AllSound.apply {ss : List (Stream α)} (h : AllSound ss) {op : SyncOp α}
    (ho : op = .sync → ∀ s ∈ ss, s.Open) : AllSound (op.apply ss) := by
  cases op with
  | addData id data => exact h.modify id fun s hs => hs.addData data
  | moveData id data => exact h.modify id fun s hs => hs.addData data
  | setNextTimestampBound id ts => exact h.modify id fun s hs => hs.setNextTimestampBound ts
  | closeManager id => exact h.modify id fun s hs => hs.close
  | close => exact h.map fun s _ hs => hs.close
  | sync => exact h.map fun s hmem hs => hs.sync (ho rfl s hmem)

theorem ExactRun.exact {ss : List (Stream α)} {ops : List (SyncOp α)} (h : ExactRun ss ops) :
    ∀ s ∈ ss, s.Exact := by
  cases ops with
  | nil => exact h
  | cons op ops => exact h.1

theorem AllSound.exactRun_iff {ss : List (Stream α)} (h : AllSound ss) (ops : List (SyncOp α)) :
    ExactRun ss ops ↔ OpenRun ss ops := by
  induction ops generalizing ss with
  | nil => exact iff_of_true (fun s hs => (h s hs).exact) trivial
  | cons op ops ih =>
    apply Iff.intro
    · intro hx
      have ho : op = .sync → ∀ s ∈ ss, s.Open := by
        intro heq s hs
        subst heq
        have hnext := hx.2.2.exact s.sync (List.mem_map_of_mem hs)
        exact (h s hs).exact_iff_open.mp hnext
      exact ⟨ho, (ih (h.apply ho)).mp hx.2.2⟩
    · intro ⟨ho, hrest⟩
      exact ⟨fun s hs => (h s hs).exact, fun _ s _ => s.sync_queue, (ih (h.apply ho)).mpr hrest⟩

theorem Stream.Start.sound {s : Stream α} (h : s.Start) : s.Sound := by
  refine ⟨?_, h.done⟩
  unfold Stream.Exact
  rw [h.handed, h.queue, h.queued]
  rfl

/-- The streams lose nothing and hand over everything exactly as long as no stream at its end is synced with data in it. -/
theorem sync_exact_iff {ss : List (Stream α)} (h : ∀ s ∈ ss, s.Start) (ops : List (SyncOp α)) :
    ExactRun ss ops ↔ OpenRun ss ops := by
  have hsound : AllSound ss := fun s hs => (h s hs).sound
  exact hsound.exactRun_iff ops

def freshStream : Stream Nat := ⟨⟨[], timestampBegin, false⟩, ⟨[], false⟩, []⟩

theorem freshStream_start : freshStream.Start := ⟨rfl, rfl, rfl, rfl, rfl⟩

theorem sync_exact_iff_open :
    (∀ s ∈ [freshStream, freshStream], s.Start) ∧
      ExactRun [freshStream, freshStream] [.addData 1 [⟨some 7, 3⟩], .sync, .close, .sync] := by
  have hstart : ∀ s ∈ [freshStream, freshStream], s.Start := by simp [freshStream_start]
  refine ⟨hstart, (sync_exact_iff hstart _).mpr ⟨by simp, ?_, by simp, ?_, trivial⟩⟩
  · intro _ s hs
    rcases List.mem_pair.mp hs with rfl | rfl
    · exact Or.inl rfl
    · exact Or.inr (by decide)
  · intro _ s hs
    rcases List.mem_pair.mp hs with rfl | rfl
    · exact Or.inl rfl
    · exact Or.inl rfl

/-- The last value before closing is lost. -/
theorem sync_loses_last :
    freshStream.Start ∧ ¬ ExactRun [freshStream] [.addData 0 [⟨some 7, 3⟩], .close, .sync] := by
  apply And.intro freshStream_start
  intro h
  have hlast := h.2.2.2.2.2.2 _ (List.mem_singleton_self _)
  have hlost : [] ++ [] = [some 7] := hlast
  exact absurd hlost (by decide)

end Dni.Cpp
