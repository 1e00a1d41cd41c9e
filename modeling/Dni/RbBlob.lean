import Dni.RbDataParse

namespace Dni.Cpp

open Access

/-- The blob a slot is filled with: nic name, timestamp, nine numbers of which the first is the
packet count, and the packets. -/
structure Blob where
  nicName : List UInt8
  ts : List UInt8
  pktsStats : List UInt8
  packets : List (List UInt8)
  nicName_lt : nicName.length < 256 ^ 2
  ts_length : ts.length = 8
  pktsStats_length : pktsStats.length = 4 * 9
  total_pos : 0 < Bytes.val (pktsStats.take 4).reverse
  count : packets.length = min (Bytes.val (pktsStats.take 4).reverse) 10000
  packets_lt : ∀ p ∈ packets, p.length < 256 ^ 2

def record (p : List UInt8) : List UInt8 := le16 p.length ++ p

namespace Blob

def header (b : Blob) : List UInt8 := le16 b.nicName.length ++ (b.nicName ++ (b.ts ++ b.pktsStats))

def encode (b : Blob) : List UInt8 := b.header ++ b.packets.flatMap record

/-- The blob at address zero, and whatever lies behind it. -/
def memory (b : Blob) (behind : Nat → UInt8) (a : Nat) : UInt8 := (b.encode[a]?).getD (behind a)

end Blob

/-- Body and length of the records of these packets from an offset on. -/
def places (offset : Nat) : List (List UInt8) → List (Nat × Nat)
  | [] => []
  | p :: ps => (offset + 2, p.length) :: places (offset + 2 + p.length) ps

/-- The parser reads nothing behind the blob, visits its records in order, and looks for the features
of each inside it. -/
structure StaysInside (b : Blob) (behind : Nat → UInt8) : Prop where
  inside : (process (b.memory behind)).Inside b.encode.length
  visits : ∃ header visits, (process (b.memory behind)).value = some (some (header, visits)) ∧
    visits.map (fun v => (v.body, v.pktLen)) = places b.header.length b.packets ∧
    ∀ v ∈ visits, (parseSndFeatures (b.memory behind) v.body).Inside (v.body + v.pktLen)

variable {mem : Nat → UInt8}

theorem Blob.holds (b : Blob) (behind : Nat → UInt8) : Holds (b.memory behind) 0 b.encode := by
  apply List.ext_getElem
  · simp
  · intro i hi hi'
    simp [Blob.memory, List.getElem?_eq_getElem hi']

theorem skipVlan_total (ethHeader tags hProto l3Off : Nat) :
    (skipVlan mem ethHeader tags hProto l3Off).Total := by
  induction tags generalizing hProto l3Off with
  | zero => exact total_pure _
  | succ tags ih =>
    rw [skipVlan]
    split
    · exact total_pure _
    · exact total_bind total_netWord fun _ => ih _ _

theorem parseEthtypeVlan_total (ethHeader : Nat) : (parseEthtypeVlan mem ethHeader).Total := by
  apply total_bind total_netWord
  intro hProto
  split
  · exact total_pure _
  · exact total_bind (skipVlan_total _ _ _ _) fun _ => total_pure _

theorem parsePorts_total (ipHeader : Nat) : (parsePorts mem ipHeader).Total := by
  apply total_bind total_netWord
  intro versionHl
  apply total_bind total_netWord
  intro source
  exact total_bind total_netWord fun _ => total_pure _

/-- Whatever a packet holds, its features are found or it is left out. -/
theorem parseSndFeatures_total (body : Nat) : (parseSndFeatures mem body).Total := by
  apply total_bind (parseEthtypeVlan_total body)
  intro found
  split
  · exact total_pure _
  · split
    · apply total_bind total_netWord
      intro sip
      apply total_bind total_netWord
      intro dip
      apply total_bind total_netWord
      intro proto
      split
      · apply total_bind (parsePorts_total _)
        intro ports
        exact total_bind total_netWord fun _ => total_pure _
      · split
        · exact total_bind total_netWord fun _ => total_pure _
        · exact total_pure _
    · exact total_pure _

/-- The first of the numbers is the word at the start. -/
theorem parseStats_head (n slot : Nat) :
    ∃ rest, (parseStats mem (n + 1) slot).value = some (little mem slot 4 :: rest) := by
  induction n generalizing slot with
  | zero => exact ⟨[], rfl⟩
  | succ n ih =>
    obtain ⟨rest, hrest⟩ := ih (slot + 4)
    refine ⟨little mem (slot + 4) 4 :: rest, ?_⟩
    rw [parseStats, value_bind, value_word, Option.bind_some, value_bind, hrest]
    rfl

theorem holds_records {data : Nat} {p : List UInt8} {ps : List (List UInt8)}
    (h : Holds mem data ((p :: ps).flatMap record)) :
    Holds mem data (le16 p.length) ∧ Holds mem (data + 2 + p.length) (ps.flatMap record) := by
  rw [List.flatMap_cons, holds_append, record, holds_append] at h
  obtain ⟨⟨hlen, -⟩, hrest⟩ := h
  rw [List.length_append, ← Nat.add_assoc] at hrest
  exact ⟨hlen, hrest⟩

theorem next_length {data : Nat} {ps : List (List UInt8)}
    (hm : Holds mem data (ps.flatMap record)) (hlt : ∀ p ∈ ps, p.length < 256 ^ 2) :
    ∀ p ∈ ps.head?, little mem data 2 = p.length := by
  intro p hp
  cases ps with
  | nil => cases hp
  | cons q ps =>
    cases hp
    exact little_le16 (hlt p (by simp)) (holds_records hm).1

/-- The loop visits the records of the packets, given the length of the first. -/
theorem packetLoop_visits {ps : List (List UInt8)} {data n : Nat}
    (hm : Holds mem data (ps.flatMap record)) (hlt : ∀ p ∈ ps, p.length < 256 ^ 2)
    (hn : ∀ p ∈ ps.head?, n = p.length) :
    ∃ visits, (packetLoop mem ps.length data n).value = some visits ∧
      visits.map (fun v => (v.body, v.pktLen)) = places data ps := by
  induction ps generalizing data n with
  | nil => exact ⟨[], rfl, rfl⟩
  | cons p ps ih =>
    have hrest := (holds_records hm).2
    have hlt' : ∀ q ∈ ps, q.length < 256 ^ 2 := fun q hq => hlt q (by simp [hq])
    cases hn p rfl
    obtain ⟨f, hf⟩ := @parseSndFeatures_total mem (data + 2)
    obtain ⟨visits, hvisits, hplaces⟩ := ih hrest hlt' (next_length hrest hlt')
    refine ⟨⟨data + 2, p.length, f⟩ :: visits, ?_, ?_⟩
    · rw [List.length_cons, packetLoop, value_bind, hf, Option.bind_some, value_bind, value_word,
        Option.bind_some, value_bind, hvisits]
      rfl
    · rw [List.map_cons, hplaces]
      rfl

/-- After the last record the loop reads two more bytes. -/
theorem packetLoop_overrun {ps : List (List UInt8)} {data n E : Nat} (hne : ps ≠ [])
    (hm : Holds mem data (ps.flatMap record)) (hlt : ∀ p ∈ ps, p.length < 256 ^ 2)
    (hn : ∀ p ∈ ps.head?, n = p.length) (hin : (packetLoop mem ps.length data n).Inside E) :
    data + (ps.flatMap record).length + 2 ≤ E := by
  induction ps generalizing data n with
  | nil => exact absurd rfl hne
  | cons p ps ih =>
    have hrest := (holds_records hm).2
    have hlt' : ∀ q ∈ ps, q.length < 256 ^ 2 := fun q hq => hlt q (by simp [hq])
    cases hn p rfl
    obtain ⟨f, hf⟩ := @parseSndFeatures_total mem (data + 2)
    obtain ⟨visits, hvisits, -⟩ := packetLoop_visits hrest hlt' (next_length hrest hlt')
    rw [List.length_cons, packetLoop, inside_bind hf, inside_bind value_word, inside_bind hvisits] at hin
    obtain ⟨-, hword, hloop, -⟩ := hin
    have hlen : ((p :: ps).flatMap record).length = 2 + p.length + (ps.flatMap record).length := by
      simp only [List.flatMap_cons, List.length_append, record, le16, List.length_cons, List.length_nil]
    cases ps with
    | nil =>
      have hend := (inside_word (Nat.succ_pos 1)).mp hword
      rw [hlen, List.flatMap_nil, List.length_nil]
      omega
    | cons q ps =>
      have hend := ih (by simp) hrest hlt' (next_length hrest hlt') hloop
      omega

namespace Blob

theorem header_length (b : Blob) : b.header.length = 2 + b.nicName.length + 8 + 4 * 9 := by
  simp only [header, List.length_append, b.ts_length, b.pktsStats_length, le16, List.length_cons,
    List.length_nil]
  omega

theorem packets_ne_nil (b : Blob) : b.packets ≠ [] := by
  intro h
  have hc := b.count
  have hp := b.total_pos
  rw [h, List.length_nil] at hc
  omega

theorem parseHeader_value (b : Blob) (hm : Holds mem 0 b.header) :
    ∃ header, (parseHeader mem).value = some header ∧ header.offset = b.header.length ∧
      header.pktsStats.headD 0 = Bytes.val (b.pktsStats.take 4).reverse := by
  rw [header, holds_append, holds_append, holds_append] at hm
  obtain ⟨hlen, -, -, hstats⟩ := hm
  have hn := little_le16 b.nicName_lt hlen
  rw [b.header_length]
  have hpos : 0 + (le16 b.nicName.length).length + b.nicName.length + b.ts.length =
      2 + b.nicName.length + 8 := by
    rw [b.ts_length]
    simp [le16]
  rw [hpos] at hstats
  have hhead : Holds mem (2 + b.nicName.length + 8) (b.pktsStats.take 4) := by
    rw [← List.take_append_drop 4 b.pktsStats, holds_append] at hstats
    exact hstats.1
  have hfour : (b.pktsStats.take 4).length = 4 := by simp [b.pktsStats_length]
  have htotal := little_of_holds hhead
  rw [hfour] at htotal
  obtain ⟨rest, hrest⟩ := @parseStats_head mem 8 (2 + b.nicName.length + 8)
  rw [parseHeader, value_bind, value_word, Option.bind_some, hn]
  generalize b.nicName.length = n at hrest htotal ⊢
  simp only [Nat.zero_add]
  rw [value_bind, value_bytes, Option.bind_some, value_bind, value_word, Option.bind_some, value_bind,
    hrest, Option.bind_some]
  exact ⟨_, rfl, rfl, htotal⟩

end Blob

theorem process_spec (b : Blob) (behind : Nat → UInt8) :
    ∃ header visits, (process (b.memory behind)).value = some (some (header, visits)) ∧
      visits.map (fun v => (v.body, v.pktLen)) = places b.header.length b.packets ∧
      ∀ E, (process (b.memory behind)).Inside E → b.encode.length + 2 ≤ E := by
  have hm := b.holds behind
  rw [Blob.encode, holds_append, Nat.zero_add] at hm
  obtain ⟨hhead, hrecords⟩ := hm
  have hn := next_length hrecords b.packets_lt
  obtain ⟨header, hvalue, hoffset, htotal⟩ := b.parseHeader_value hhead
  obtain ⟨visits, hvisits, hplaces⟩ := packetLoop_visits hrecords b.packets_lt hn
  have hne : header.pktsStats.headD 0 ≠ 0 := by
    rw [htotal]
    exact Nat.ne_of_gt b.total_pos
  have hcnt : (if header.pktsStats.headD 0 > 10000 then 10000 else header.pktsStats.headD 0) =
      b.packets.length := by
    rw [b.count, htotal]
    split <;> omega
  have hpackets : (parsePackets (b.memory behind) b.header.length b.packets.length).value =
      some visits := by
    rw [parsePackets, value_bind, value_word, Option.bind_some, hvisits]
  refine ⟨header, visits, ?_, hplaces, ?_⟩
  · rw [process, value_bind, hvalue, Option.bind_some]
    simp only [if_neg hne, hcnt, hoffset]
    rw [value_bind, hpackets]
    rfl
  · intro E hin
    rw [process, inside_bind hvalue] at hin
    simp only [if_neg hne, hcnt, hoffset] at hin
    rw [inside_bind hpackets, parsePackets, inside_bind value_word] at hin
    rw [Blob.encode, List.length_append]
    exact packetLoop_overrun b.packets_ne_nil hrecords b.packets_lt hn hin.2.1.2

/-- The records are visited in order, but after the last one two bytes behind the blob are read. -/
theorem process_overruns (b : Blob) (behind : Nat → UInt8) : ¬ StaysInside b behind := by
  intro h
  obtain ⟨_, _, _, _, hover⟩ := process_spec b behind
  have hle := hover _ h.inside
  omega

def onePacket : Blob where
  nicName := []
  ts := List.replicate 8 0
  pktsStats := 1 :: List.replicate 35 0
  packets := [[0]]
  nicName_lt := by decide
  ts_length := rfl
  pktsStats_length := rfl
  total_pos := by decide
  count := by decide
  packets_lt := by simp

theorem process_reads_behind : ¬ StaysInside onePacket fun _ => 0 := by
  intro h
  exact absurd (h.inside 49 (by decide +kernel)) (by decide)

end Dni.Cpp
