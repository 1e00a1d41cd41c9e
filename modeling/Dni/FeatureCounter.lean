import Dni.SipDedupSides

namespace Dni

open GoMap Sieve Loops

/-- The fields of a packet that can be counted. -/
inductive Feature where
  | sip
  | sport
  | dport
  | protocol
  | length
  | dip
deriving DecidableEq

def Feature.name : Feature → String
  | .sip => "SIP"
  | .sport => "SPort"
  | .dport => "DPort"
  | .protocol => "Proto"
  | .length => "Length"
  | .dip => "DIP"

def Feature.value : Feature → Cpp.Packet → UInt32
  | .sip => Cpp.Packet.sip
  | .sport => Cpp.Packet.sport
  | .dport => Cpp.Packet.dport
  | .protocol => Cpp.Packet.protocol
  | .length => Cpp.Packet.length
  | .dip => Cpp.Packet.dip

namespace Cpp

/-- 0:SIP, 1:SPort, 2:DPort, 3:Protocol, 4:Length, 5:DIP. -/
def Packet.row (p : Packet) : List UInt32 := [p.sip, p.sport, p.dport, p.protocol, p.length, p.dip]

def Packet.column (j : Nat) (p : Packet) : UInt32 := p.row.getD j 0

namespace FeatureCounterTask

/-- The counters after one packet, each by its own position; `none` is a read past the end of the row. -/
def countPacket (ret : List IPCount) (p : Packet) : Option (List IPCount) :=
  ret.zipIdx.mapM fun e => p.row[e.2]?.map (increment e.1)

/-- `Process`: what is added to the outputs, each with its tag. -/
def process (features : List Feature) (pcapPackets : List Packet) : Option (List (Feature × IPCount)) :=
  (pcapPackets.foldlM countPacket (List.replicate features.length ∅)).map (features.zip ·)

end FeatureCounterTask

end Cpp

/-- The count of each value of a field. -/
def histogram {α : Type} (value : α → UInt32) (packets : List α) : IPCount :=
  packets.foldl (fun m p => increment m (value p)) ∅

section Histogram

variable {α : Type} (value : α → UInt32) (packets : List α)

theorem lookup_histogram (v : UInt32) : (histogram value packets).lookup v =
    if v ∈ packets.map value then some ((packets.map value).count v : Int) else none := by
  have hlen : ∀ (xs : List α) (c : Int), xs.foldl (fun c _ => c + 1) c = c + xs.length := by
    intro xs
    induction xs with
    | nil => intro c; simp
    | cons x xs ih =>
      intro c
      rw [List.foldl_cons, ih, List.length_cons]
      omega
  have hacc : histogram value packets = accumulate value 0 (fun c _ => c + 1) packets ∅ := rfl
  have hcount : (packets.map value).count v = (packets.filter (value · = v)).length := by
    rw [List.count, List.countP_map, List.countP_eq_length_filter]
    rfl
  rw [hacc, lookup_accumulate, hlen, AList.lookup_empty, Option.getD_none, Int.zero_add, hcount]
  simp only [List.mem_map]

theorem mass_histogram : mass (pairs (histogram value packets)) = packets.length := by
  have hfold : ∀ (xs : List α) (m : IPCount),
      mass (pairs (xs.foldl (fun m p => increment m (value p)) m)) = mass (pairs m) + xs.length := by
    intro xs
    induction xs with
    | nil => intro m; simp
    | cons x xs ih =>
      intro m
      rw [List.foldl_cons, ih, mass_increment, List.length_cons]
      omega
  rw [histogram, hfold]
  exact Int.zero_add _

end Histogram

theorem field_name (f : Feature) (p : Cpp.Packet) : p.info.field f.name = f.value p := by
  cases f <;> rfl

/-- What the Go function counts for a feature. -/
theorem getFeatureStatistics_eq (f : Feature) (packets : List Cpp.Packet) :
    getFeatureStatistics (packets.map Cpp.Packet.info) f.name = histogram f.value packets := by
  have hstep : (fun (m : IPCount) (p : Cpp.Packet) => increment m (p.info.field f.name)) =
      fun m p => increment m (f.value p) := by
    funext m p
    rw [field_name]
  have hmap : getFeatureStatistics (packets.map Cpp.Packet.info) f.name =
      packets.foldl (fun m p => increment m (p.info.field f.name)) ∅ := List.foldl_map
  rw [hmap, hstep, histogram]

namespace Cpp.FeatureCounterTask

/-- With at most six counters each row is long enough. -/
theorem countPacket_eq {ret : List IPCount} (h : ret.length ≤ 6) (p : Packet) :
    countPacket ret p = some (ret.mapIdx fun j m => increment m (p.column j)) := by
  rw [List.mapIdx_eq_zipIdx_map]
  apply mapM_eq_some_map
  intro ⟨m, j⟩ he
  have hj := List.snd_lt_of_mem_zipIdx he
  have hrow : p.row[j]? = some (p.column j) := by
    rw [Packet.column, List.getD_eq_getElem?_getD, List.getElem?_eq_getElem (by rw [Packet.row]; simp; omega),
      Option.getD_some]
  rw [hrow, Option.map_some]

/-- After the loop each counter has counted the column of its position. -/
theorem foldlM_countPacket {ret : List IPCount} (h : ret.length ≤ 6) (packets : List Packet) :
    packets.foldlM countPacket ret =
      some (ret.mapIdx fun j m => packets.foldl (fun m p => increment m (p.column j)) m) := by
  induction packets generalizing ret with
  | nil =>
    apply congrArg some
    apply List.ext_getElem?
    intro j
    simp
  | cons p packets ih =>
    rw [List.foldlM_cons, countPacket_eq h, Option.bind_eq_bind, Option.bind_some, ih (by simpa using h),
      List.mapIdx_mapIdx]
    rfl

theorem length_le_six {features : List Feature} (hnd : features.Nodup) : features.length ≤ 6 := by
  have hsub : features ⊆ [.sip, .sport, .dport, .protocol, .length, .dip] := by
    intro f _
    cases f <;> simp
  exact (hnd.subperm hsub).length_le

/-- What is put out for distinct features. -/
theorem process_eq {features : List Feature} (hnd : features.Nodup) (packets : List Packet) :
    process features packets = some (features.mapIdx fun j f => (f, histogram (Packet.column j) packets)) := by
  have hlen : (List.replicate features.length (∅ : IPCount)).length ≤ 6 := by
    rw [List.length_replicate]
    exact length_le_six hnd
  rw [process, foldlM_countPacket hlen, Option.map_some, Option.some.injEq]
  apply List.ext_getElem?
  intro j
  rw [List.zip_eq_zipWith, List.getElem?_zipWith, List.getElem?_mapIdx, List.getElem?_mapIdx, List.getElem?_replicate]
  cases hf : features[j]? with
  | none => rfl
  | some f =>
    obtain ⟨hj, _⟩ := List.getElem?_eq_some_iff.mp hf
    rw [if_pos hj]
    rfl

/-- Each output has the exact counts of the field that it is named after, as the Go function has them. -/
structure CountsRight (features : List Feature) (packets : List Packet) (out : List (Feature × IPCount)) : Prop where
  tags : out.map Prod.fst = features
  counts : ∀ f hist, (f, hist) ∈ out → ∀ v, hist.lookup v =
    if v ∈ packets.map f.value then some ((packets.map f.value).count v : Int) else none
  total : ∀ f hist, (f, hist) ∈ out → mass (pairs hist) = packets.length
  go : ∀ f hist, (f, hist) ∈ out → ∀ v,
    hist.lookup v = (getFeatureStatistics (packets.map Packet.info) f.name).lookup v

/-- Two columns have the same counts exactly if they hold the same values as often. -/
theorem lookup_histogram_iff (value value' : Packet → UInt32) (packets : List Packet) :
    (∀ v, (histogram value packets).lookup v = (histogram value' packets).lookup v) ↔
      (packets.map value).Perm (packets.map value') := by
  have hcount : ∀ (xs : List UInt32) (v : UInt32),
      (if v ∈ xs then some (xs.count v : Int) else none).getD 0 = xs.count v := by
    intro xs v
    split
    next => rfl
    next h => rw [List.count_eq_zero_of_not_mem h]; rfl
  apply Iff.intro
  · intro h
    apply List.perm_iff_count.mpr
    intro v
    have hv := congrArg (fun c => c.getD 0) (h v)
    rw [lookup_histogram, lookup_histogram, hcount, hcount] at hv
    exact Int.ofNat_inj.mp hv
  · intro h v
    rw [lookup_histogram, lookup_histogram]
    simp only [h.mem_iff, h.count_eq]

/-- The outputs are right exactly if each feature stands at the position of its column, or at that of a column with
the same values. -/
theorem counts_right_iff {features : List Feature} (hnd : features.Nodup) (packets : List Packet) :
    (∃ out, process features packets = some out ∧ CountsRight features packets out) ↔
      ∀ j f, features[j]? = some f → (packets.map (Packet.column j)).Perm (packets.map f.value) := by
  have hmem : ∀ f hist, (f, hist) ∈ features.mapIdx (fun j f => (f, histogram (Packet.column j) packets)) ↔
      ∃ j, features[j]? = some f ∧ histogram (Packet.column j) packets = hist := by
    intro f hist
    simp only [List.mem_iff_getElem?, List.getElem?_mapIdx, Option.map_eq_some_iff, Prod.mk.injEq]
    apply exists_congr
    intro j
    apply Iff.intro
    · intro ⟨_, hf, he, hh⟩
      exact ⟨he ▸ hf, hh⟩
    · intro ⟨hf, hh⟩
      exact ⟨f, hf, rfl, hh⟩
  apply Iff.intro
  · intro ⟨out, hout, hright⟩ j f hf
    rw [process_eq hnd] at hout
    cases hout
    apply (lookup_histogram_iff _ _ _).mp
    intro v
    rw [hright.go f _ ((hmem f _).mpr ⟨j, hf, rfl⟩), getFeatureStatistics_eq]
  · intro h
    have hsame : ∀ f hist, (f, hist) ∈ features.mapIdx (fun j f => (f, histogram (Packet.column j) packets)) →
        ∀ v, hist.lookup v = (histogram f.value packets).lookup v := by
      intro f hist hin
      obtain ⟨j, hf, hh⟩ := (hmem f hist).mp hin
      rw [← hh]
      exact (lookup_histogram_iff _ _ _).mpr (h j f hf)
    refine ⟨_, process_eq hnd packets, ?_, ?_, ?_, ?_⟩
    · apply List.ext_getElem?
      intro j
      rw [List.getElem?_map, List.getElem?_mapIdx, Option.map_map]
      exact Option.map_id_apply
    · intro f hist hin v
      rw [hsame f hist hin v, lookup_histogram]
    · intro f hist hin
      obtain ⟨j, _, hh⟩ := (hmem f hist).mp hin
      rw [← hh, mass_histogram]
    · intro f hist hin v
      rw [hsame f hist hin v, getFeatureStatistics_eq]

/-- One packet. -/
def onePacket : List Packet := [⟨0x0A000001, 4000, 80, 6, 60, 0x0A000002⟩]

theorem counts_right_iff_sources :
    (∃ out, process [.sip, .sport] onePacket = some out ∧ CountsRight [.sip, .sport] onePacket out) ↔
      ∀ j f, [Feature.sip, .sport][j]? = some f →
        (onePacket.map (Packet.column j)).Perm (onePacket.map f.value) :=
  counts_right_iff (by decide) onePacket

/-- The output named after the destination port has the source address. -/
theorem dport_counts_sip : ¬ ∃ out, process [.dport] onePacket = some out ∧ CountsRight [.dport] onePacket out := by
  intro ⟨out, hout, hright⟩
  cases hout
  exact absurd (hright.counts .dport _ (List.mem_singleton.mpr rfl) 80) (by decide +kernel)

end Cpp.FeatureCounterTask

end Dni
