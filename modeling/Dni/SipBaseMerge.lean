import Dni.AddrText
import Dni.AttackerRandom

namespace Dni

open GoMap Sieve

/-- A packet is a map of named fields; a missing field reads as zero. -/
abbrev PacketInfo := GoMap String UInt32

def PacketInfo.field (info : PacketInfo) (name : String) : UInt32 := (info.lookup name).getD 0

/-- `m[key]++`. -/
def increment (m : IPCount) (key : UInt32) : IPCount := m.insert key ((m.lookup key).getD 0 + 1)

/-- GetFeatureStatistics of one feature. -/
def getFeatureStatistics (pinfos : List PacketInfo) (fname : String) : IPCount :=
  accumulate (PacketInfo.field · fname) 0 (fun c _ => c + 1) pinfos ∅

/-- The address and the mask that `net.IPNet.Contains` compares, nil where their lengths disagree. -/
def NetIPNet.networkNumberAndMask (n : NetIPNet) : IP × IP :=
  let ip := (to4 n.ip).getD n.ip
  if n.mask.length = 4 ∧ ip.length = 4 then (ip, n.mask)
  else if n.mask.length = 16 ∧ ip.length = 4 then (ip, n.mask.drop 12)
  else if n.mask.length = 16 ∧ ip.length = 16 then (ip, n.mask)
  else ([], [])

def NetIPNet.contains (n : NetIPNet) (ip : IP) : Bool :=
  let (nn, m) := n.networkNumberAndMask
  let ip := (to4 ip).getD ip
  ip.length = nn.length ∧ List.zipWith (· &&& ·) ip m = List.zipWith (· &&& ·) nn m

/-- `attakIPNet.String()`. -/
def NetIPNet.text (n : NetIPNet) : String := n.string.getD "<nil>"

/-- The counts of a source group; its labels are filled in by a later task. -/
structure SIPBaseMergedStat where
  hostNicSign : String := ""
  sipRand : Bool := false
  sip : String := ""
  ipIdxs : List Nat := []
  dip : IPCount := ∅
  sport : IPCount := ∅
  dport : IPCount := ∅
  length : IPCount := ∅
  proto : IPCount := ∅

section Merge

variable (hostNicSign : String)

/-- What both branches of the loop do to the group they found. -/
def SIPBaseMergedStat.merge (mergedStat : SIPBaseMergedStat) (sip : String) (ipIdx : Nat)
    (info : PacketInfo) : SIPBaseMergedStat where
  hostNicSign := hostNicSign
  sipRand := mergedStat.sipRand
  sip := sip
  ipIdxs := mergedStat.ipIdxs ++ [ipIdx]
  dip := increment mergedStat.dip (info.field "DIP")
  sport := increment mergedStat.sport (info.field "SPort")
  dport := increment mergedStat.dport (info.field "DPort")
  length := increment mergedStat.length (info.field "Length")
  proto := increment mergedStat.proto (info.field "Proto")

def mergeStat (mergedStats : GoMap String SIPBaseMergedStat) (sip : String) (ipIdx : Nat)
    (info : PacketInfo) : GoMap String SIPBaseMergedStat :=
  mergedStats.insert sip (((mergedStats.lookup sip).getD {}).merge hostNicSign sip ipIdx info)

variable (attakIPNets : List NetIPNet) (isRand : Bool) (ipCountDF4 : IPCount)

/-- One packet: the first network that contains its source, then the random station. -/
def sipBaseMergeStep (mergedStats : GoMap String SIPBaseMergedStat) (packet : PacketInfo × Nat) :
    GoMap String SIPBaseMergedStat :=
  let (info, ipIdx) := packet
  let ip := info.field "SIP"
  let mergedStats := match attakIPNets.find? fun n => n.contains (uiton ip) with
    | some attakIPNet => mergeStat hostNicSign mergedStats attakIPNet.text ipIdx info
    | none => mergedStats
  if isRand ∧ ip ∈ ipCountDF4 then mergeStat hostNicSign mergedStats "random" ipIdx info else mergedStats

def sipBaseMerge (pinfos : List PacketInfo) : GoMap String SIPBaseMergedStat :=
  pinfos.zipIdx.foldl (sipBaseMergeStep hostNicSign attakIPNets isRand ipCountDF4) ∅

/-- The groups that a packet is merged into. -/
def sourcesOf (info : PacketInfo) : List String :=
  ((attakIPNets.find? fun n => n.contains (uiton (info.field "SIP"))).map NetIPNet.text).toList ++
    if isRand ∧ info.field "SIP" ∈ ipCountDF4 then ["random"] else []

/-- All packets under the groups they go to, in the order of the table. -/
def attributions (pinfos : List PacketInfo) : List (String × PacketInfo × Nat) :=
  pinfos.zipIdx.flatMap fun p => (sourcesOf attakIPNets isRand ipCountDF4 p.1).map (·, p)

theorem mem_attributions {pinfos : List PacketInfo} {key : String} {info : PacketInfo} {i : Nat} :
    (key, info, i) ∈ attributions attakIPNets isRand ipCountDF4 pinfos ↔
      pinfos[i]? = some info ∧ key ∈ sourcesOf attakIPNets isRand ipCountDF4 info := by
  simp [attributions, List.mem_flatMap, List.mk_mem_zipIdx_iff_getElem?]

theorem sipBaseMerge_eq (pinfos : List PacketInfo) :
    sipBaseMerge hostNicSign attakIPNets isRand ipCountDF4 pinfos =
      accumulate Prod.fst {} (fun g e => g.merge hostNicSign e.1 e.2.2 e.2.1)
        (attributions attakIPNets isRand ipCountDF4 pinfos) ∅ := by
  have hfold : ∀ (ps : List (PacketInfo × Nat)) (m : GoMap String SIPBaseMergedStat),
      ps.foldl (sipBaseMergeStep hostNicSign attakIPNets isRand ipCountDF4) m =
        accumulate Prod.fst {} (fun g e => g.merge hostNicSign e.1 e.2.2 e.2.1)
          (ps.flatMap fun p => (sourcesOf attakIPNets isRand ipCountDF4 p.1).map (·, p)) m := by
    intro ps
    induction ps with
    | nil => intro m; rfl
    | cons p ps ih =>
      intro m
      rw [List.foldl_cons, ih, List.flatMap_cons, accumulate, accumulate, List.foldl_append]
      congr 1
      unfold sipBaseMergeStep sourcesOf
      dsimp only
      cases attakIPNets.find? fun n => n.contains (uiton (p.1.field "SIP")) <;> split <;> rfl
  exact hfold _ ∅

end Merge

theorem mass_increment (m : IPCount) (key : UInt32) :
    mass (pairs (increment m key)) = mass (pairs m) + 1 := by
  cases h : m.lookup key with
  | none =>
    have hout : key ∉ m := AList.lookup_eq_none.mp h
    rw [increment, h, pairs, AList.entries_insert_of_notMem hout, List.map_cons]
    exact Int.add_comm _ _
  | some c =>
    rw [increment, pairs_insert, mass_perm (pairs_perm_erase h), h, Option.getD_some]
    simp only [mass, List.map_cons, List.sum_cons]
    omega

/-- Each of the five histograms counts the packets of the group. -/
structure SIPBaseMergedStat.Counts (g : SIPBaseMergedStat) : Prop where
  dip : mass (pairs g.dip) = g.ipIdxs.length
  sport : mass (pairs g.sport) = g.ipIdxs.length
  dport : mass (pairs g.dport) = g.ipIdxs.length
  length : mass (pairs g.length) = g.ipIdxs.length
  proto : mass (pairs g.proto) = g.ipIdxs.length

namespace SIPBaseMergedStat

theorem Counts.merge {g : SIPBaseMergedStat} (h : g.Counts) (hostNicSign sip : String) (i : Nat)
    (info : PacketInfo) : (g.merge hostNicSign sip i info).Counts := by
  have hlen : (g.merge hostNicSign sip i info).ipIdxs.length = g.ipIdxs.length + 1 :=
    List.length_append
  constructor <;> rw [hlen, SIPBaseMergedStat.merge, mass_increment, Nat.cast_add, Nat.cast_one]
  · rw [h.dip]
  · rw [h.sport]
  · rw [h.dport]
  · rw [h.length]
  · rw [h.proto]

/-- The packets merged into a group, one after the other. -/
theorem merge_all (hostNicSign : String) (es : List (String × PacketInfo × Nat)) (g : SIPBaseMergedStat)
    (h : g.Counts) :
    (es.foldl (fun g e => g.merge hostNicSign e.1 e.2.2 e.2.1) g).Counts ∧
      (es.foldl (fun g e => g.merge hostNicSign e.1 e.2.2 e.2.1) g).ipIdxs =
        g.ipIdxs ++ es.map fun e => e.2.2 := by
  induction es generalizing g with
  | nil => exact ⟨h, (List.append_nil _).symm⟩
  | cons e es ih =>
    obtain ⟨hc, hi⟩ := ih _ (h.merge hostNicSign e.1 e.2.2 e.2.1)
    refine ⟨hc, ?_⟩
    rw [List.foldl_cons, hi, List.map_cons]
    exact List.append_assoc _ [_] _

end SIPBaseMergedStat

section Groups

variable (hostNicSign : String) (attakIPNets : List NetIPNet) (isRand : Bool) (ipCountDF4 : IPCount)

theorem exists_lookup_sipBaseMerge {pinfos : List PacketInfo} {key : String} :
    (∃ g, (sipBaseMerge hostNicSign attakIPNets isRand ipCountDF4 pinfos).lookup key = some g) ↔
      ∃ e ∈ attributions attakIPNets isRand ipCountDF4 pinfos, e.1 = key := by
  rw [← mem_iff_lookup, sipBaseMerge_eq, mem_accumulate]

/-- A group holds the packets attributed to it, in the order of the table. -/
theorem lookup_sipBaseMerge {pinfos : List PacketInfo} {key : String} {g : SIPBaseMergedStat}
    (h : (sipBaseMerge hostNicSign attakIPNets isRand ipCountDF4 pinfos).lookup key = some g) :
    g.Counts ∧ g.ipIdxs =
      ((attributions attakIPNets isRand ipCountDF4 pinfos).filter (·.1 = key)).map fun e => e.2.2 := by
  rw [sipBaseMerge_eq, lookup_accumulate] at h
  split at h
  next =>
    rw [← Option.some.inj h, AList.lookup_empty, Option.getD_none]
    exact SIPBaseMergedStat.merge_all hostNicSign _ {} ⟨rfl, rfl, rfl, rfl, rfl⟩
  next => cases h

/-- No merge sets the flag of random sources. -/
theorem sipRand_of_lookup {pinfos : List PacketInfo} {key : String} {g : SIPBaseMergedStat}
    (h : (sipBaseMerge hostNicSign attakIPNets isRand ipCountDF4 pinfos).lookup key = some g) :
    g.sipRand = false := by
  have hkeep : ∀ (es : List (String × PacketInfo × Nat)) (g : SIPBaseMergedStat),
      (es.foldl (fun g e => g.merge hostNicSign e.1 e.2.2 e.2.1) g).sipRand = g.sipRand := by
    intro es
    induction es with
    | nil => intro g; rfl
    | cons e es ih => intro g; rw [List.foldl_cons, ih]; rfl
  rw [sipBaseMerge_eq, lookup_accumulate] at h
  split at h
  next =>
    rw [← Option.some.inj h, hkeep, AList.lookup_empty]
    rfl
  next => cases h

theorem mem_ipIdxs {pinfos : List PacketInfo} {key : String} {g : SIPBaseMergedStat}
    (h : (sipBaseMerge hostNicSign attakIPNets isRand ipCountDF4 pinfos).lookup key = some g) (i : Nat) :
    i ∈ g.ipIdxs ↔ ∃ info, pinfos[i]? = some info ∧ key ∈ sourcesOf attakIPNets isRand ipCountDF4 info := by
  rw [(lookup_sipBaseMerge hostNicSign attakIPNets isRand ipCountDF4 h).2]
  simp only [List.mem_map, List.mem_filter, decide_eq_true_eq]
  apply Iff.intro
  · intro ⟨⟨k, info, j⟩, ⟨he, hk⟩, hj⟩
    dsimp only at hk hj
    subst hk hj
    exact ⟨info, (mem_attributions _ _ _).mp he⟩
  · intro ⟨info, he⟩
    exact ⟨(key, info, i), ⟨(mem_attributions _ _ _).mpr he, rfl⟩, rfl⟩

/-- A packet is in a group exactly if it is attributed to it. -/
theorem mem_group_iff {pinfos : List PacketInfo} {key : String} {i : Nat} :
    (∃ g, (sipBaseMerge hostNicSign attakIPNets isRand ipCountDF4 pinfos).lookup key = some g ∧
        i ∈ g.ipIdxs) ↔
      ∃ info, pinfos[i]? = some info ∧ key ∈ sourcesOf attakIPNets isRand ipCountDF4 info := by
  apply Iff.intro
  · intro ⟨g, hg, hi⟩
    exact (mem_ipIdxs hostNicSign attakIPNets isRand ipCountDF4 hg i).mp hi
  · intro ⟨info, he⟩
    have hin := (mem_attributions attakIPNets isRand ipCountDF4).mpr he
    obtain ⟨g, hg⟩ := (exists_lookup_sipBaseMerge hostNicSign attakIPNets isRand ipCountDF4).mpr
      ⟨_, hin, rfl⟩
    exact ⟨g, hg, (mem_ipIdxs hostNicSign attakIPNets isRand ipCountDF4 hg i).mpr ⟨info, he⟩⟩

theorem NetIPNet.text_ne_random (n : NetIPNet) : n.text ≠ "random" := by
  intro h
  have hslash : ∀ s, n.string = some s → '/' ∈ s.toList := by
    intro s hs
    obtain ⟨ip, _, hs⟩ := Option.bind_eq_some_iff.mp hs
    dsimp only at hs
    split at hs <;> split at hs
    all_goals cases hs
    all_goals simp
  cases hs : n.string with
  | none =>
    rw [NetIPNet.text, hs] at h
    exact absurd h (by decide +kernel)
  | some s =>
    rw [NetIPNet.text, hs, Option.getD_some] at h
    exact absurd (h ▸ hslash s hs) (by decide +kernel)

theorem sourcesOf_nodup (info : PacketInfo) : (sourcesOf attakIPNets isRand ipCountDF4 info).Nodup := by
  unfold sourcesOf
  cases attakIPNets.find? fun n => n.contains (uiton (info.field "SIP")) <;> split <;>
    simp [NetIPNet.text_ne_random]

theorem attributions_nodup (pinfos : List PacketInfo) :
    (attributions attakIPNets isRand ipCountDF4 pinfos).Nodup := by
  apply List.nodup_flatMap.mpr
  apply And.intro
  · intro p _
    exact (sourcesOf_nodup attakIPNets isRand ipCountDF4 p.1).map (Prod.mk_left_injective p)
  · have hnd : pinfos.zipIdx.Nodup := by
      apply List.Nodup.of_map Prod.snd
      rw [List.zipIdx_map_snd]
      exact List.nodup_range'
    apply hnd.imp
    intro p q hpq e hp hq
    obtain ⟨_, _, hep⟩ := List.mem_map.mp hp
    obtain ⟨_, _, heq⟩ := List.mem_map.mp hq
    exact hpq (congrArg Prod.snd (hep.trans heq.symm))

theorem ipIdxs_nodup {pinfos : List PacketInfo} {key : String} {g : SIPBaseMergedStat}
    (h : (sipBaseMerge hostNicSign attakIPNets isRand ipCountDF4 pinfos).lookup key = some g) :
    g.ipIdxs.Nodup := by
  rw [(lookup_sipBaseMerge hostNicSign attakIPNets isRand ipCountDF4 h).2]
  apply ((attributions_nodup attakIPNets isRand ipCountDF4 pinfos).filter _).map_on
  intro ⟨k, info, i⟩ he ⟨k', info', i'⟩ he' hi
  obtain ⟨hin, hk⟩ := List.mem_filter.mp he
  obtain ⟨hin', hk'⟩ := List.mem_filter.mp he'
  simp only [decide_eq_true_eq] at hk hk' hi
  subst hk hk' hi
  have h₁ := ((mem_attributions _ _ _).mp hin).1
  have h₂ := ((mem_attributions _ _ _).mp hin').1
  rw [Option.some.inj (h₁.symm.trans h₂)]

end Groups

end Dni
