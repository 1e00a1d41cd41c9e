import Dni.SipBaseMerge

namespace Dni

open GoMap Sieve Bytes Loops

/-- A network of IPv4 addresses in its four-byte form. -/
def NetIPNet.Short (n : NetIPNet) : Prop :=
  n.ip.length = 4 ∧ ∃ k ≤ 32, n.mask = cidrMask (32 - k) 32

namespace NetIPNet

variable {n m : NetIPNet}

theorem Short.length_mask (h : n.Short) : n.mask.length = 4 := by
  obtain ⟨_, k, _, hm⟩ := h
  rw [hm]
  exact length_cidrMask_short _ (Nat.sub_le _ _)

theorem Short.contains_iff (h : n.Short) (a : UInt32) : n.contains (uiton a) = true ↔ n.Covers (uiton a) := by
  have hnum : n.networkNumberAndMask = (n.ip, n.mask) := by
    simp [networkNumberAndMask, to4, h.1, h.length_mask]
  simp [contains, hnum, to4, Covers]

theorem Short.text_eq (h : n.Short) : ∃ k ≤ 32, n.mask = cidrMask (32 - k) 32 ∧
    n.text = String.ofList (dotted n.ip ++ '/' :: Nat.toDigits 10 (32 - k)) := by
  obtain ⟨hip, k, hk, hm⟩ := h
  have hlen := length_cidrMask_short (32 - k) (Nat.sub_le _ _)
  refine ⟨k, hk, hm, ?_⟩
  simp [text, string, to4, hip, hm, hlen, (mask_text hk).2.2.1]

/-- Two networks of one text have the same addresses. -/
theorem Short.covers_of_text (hn : n.Short) (hm : m.Short) (h : n.text = m.text) (a : IP) :
    n.Covers a ↔ m.Covers a := by
  obtain ⟨k, hk, hkm, hkt⟩ := hn.text_eq
  obtain ⟨j, hj, hjm, hjt⟩ := hm.text_eq
  have hlists : dotted n.ip ++ '/' :: Nat.toDigits 10 (32 - k) = dotted m.ip ++ '/' :: Nat.toDigits 10 (32 - j) := by
    rw [← String.ofList_inj, ← hkt, ← hjt, h]
  have hread := parseCIDR_network hn.1 hk
  rw [hlists, parseCIDR_network hm.1 hj, ← hkm, ← hjm, Option.some.injEq, NetIPNet.mk.injEq] at hread
  rw [Covers, Covers, hn.1, hm.1, ← hread.1, ← hread.2]

end NetIPNet

theorem uitoin_short {k : Nat} (hk : k ≤ 32) {mask : UInt32} (hm : uiton mask = cidrMask (32 - k) 32)
    (ip : UInt32) : (uitoin ip mask).Short := ⟨rfl, k, hk, hm⟩

theorem short_of_le {s : IP} {ones : Nat} (hs : s.length = 4) (h : ones ≤ 32) :
    NetIPNet.Short ⟨s, cidrMask ones (s.length * 8)⟩ := by
  refine ⟨hs, 32 - ones, Nat.sub_le _ _, ?_⟩
  rw [Nat.sub_sub_self h, hs]

theorem toIPNetsLoop_short {fuel : Nat} {s stop : IP} {nets : List NetIPNet} (hs : s.length = 4)
    (hstop : stop.length = 4) (h : toIPNetsLoop fuel s stop = some nets) : ∀ n ∈ nets, n.Short := by
  induction fuel generalizing s nets with
  | zero => cases h
  | succ fuel ih =>
    rw [toIPNetsLoop] at h
    obtain ⟨tmp, htmp, h⟩ := Option.bind_eq_some_iff.mp h
    have hcidr : max (prefixLength (xor (addOne stop) s)) (s.length * 8 - trailingZeros s) ≤ 32 := by
      have hp := prefixLength_le (xor (addOne stop) s)
      rw [length_xor (by rw [length_addOne, hstop, hs]), length_addOne, hstop] at hp
      omega
    have hfirst := short_of_le hs hcidr
    split at h
    next =>
      cases h
      simpa using hfirst
    next =>
      obtain ⟨rest, hrest, h⟩ := Option.map_eq_some_iff.mp h
      have hlen : tmp.length = 4 := by
        unfold lastIP at htmp
        split at htmp
        next => cases htmp
        next hml =>
          cases htmp
          rw [List.length_zipWith, not_not.mp hml, Nat.min_self, hs]
      subst h
      intro n hn
      rcases List.mem_cons.mp hn with rfl | hn
      · exact hfirst
      · exact ih (by rw [length_addOne, hlen]) hrest n hn

theorem ipRangeToCIDR_short {start stop : UInt32} {nets : List NetIPNet}
    (h : ipRangeToCIDR start stop = some nets) : ∀ n ∈ nets, n.Short :=
  toIPNetsLoop_short rfl rfl h

theorem fw3Nets_short {cover : Int} {ips : List UInt32} {g : UInt32} {nets : List NetIPNet}
    (h : fw3Nets cover ips g = some nets) : ∀ n ∈ nets, n.Short := by
  have hnet : (uitoin g uint24Max).Short := uitoin_short (k := 8) (by omega) (by decide) g
  unfold fw3Nets at h
  dsimp only at h
  split at h
  next => cases h; simpa using hnet
  next =>
    split at h
    next => cases h; simpa using hnet
    next => exact ipRangeToCIDR_short h

theorem fw2Nets_short {cover : Int} {ips ipp3s : List UInt32} {g : UInt32} {nets : List NetIPNet}
    (h : fw2Nets cover ips ipp3s g = some nets) : ∀ n ∈ nets, n.Short := by
  have hnet : (uitoin g uint16Max).Short := uitoin_short (k := 16) (by omega) (by decide) g
  unfold fw2Nets at h
  dsimp only at h
  split at h
  next => cases h; simpa using hnet
  next => exact ipRangeToCIDR_short h

theorem mapM_flatten_short {emit : UInt32 → Option (List NetIPNet)} {gs : List UInt32}
    {netss : List (List NetIPNet)} (hemit : ∀ g nets, emit g = some nets → ∀ n ∈ nets, n.Short)
    (h : gs.mapM emit = some netss) : ∀ n ∈ netss.flatten, n.Short := by
  intro n hn
  obtain ⟨g, _, nets, hnets, hn⟩ := (mem_mapM_flatten h n).mp hn
  exact hemit g nets hnets n hn

namespace SndAttackerIPMergeTask

variable {F : Type} [FloatArith F] (t : SndAttackerIPMergeOptions F) (ord : Nat → Order UInt32 Int)

theorem steps_short {m : IPCount} {r : SuspectSteps} (h : steps t ord m = some r) :
    ∀ n ∈ r.nets32 ++ r.nets24 ++ r.nets16, n.Short := by
  obtain ⟨⟨nets24, df2⟩, h24, h⟩ := Option.bind_eq_some_iff.mp h
  obtain ⟨⟨nets16, df3⟩, h16, h⟩ := Option.map_eq_some_iff.mp h
  obtain ⟨netss24, hs24, h24⟩ := Option.map_eq_some_iff.mp h24
  obtain ⟨netss16, hs16, h16⟩ := Option.map_eq_some_iff.mp h16
  cases h
  cases h24
  cases h16
  intro n hn
  rcases List.mem_append.mp hn with hn | hn
  · rcases List.mem_append.mp hn with hn | hn
    · obtain ⟨ip, _, hip⟩ := List.mem_map.mp hn
      rw [← hip]
      exact uitoin_short (k := 0) (by omega) (by decide) ip
    · exact mapM_flatten_short (fun _ _ => fw3Nets_short) hs24 n hn
  · exact mapM_flatten_short (fun _ _ => fw2Nets_short) hs16 n hn

/-- There is no random source, or their packets stay below the share of the sum `s`. -/
def NoRandomAttack (s : F) (m : IPCount) (normalIps : GoMap UInt32 Unit) : Prop :=
  randomSources t s m normalIps = [] ∨
    (mass (randomSources t s m normalIps)).bmod (2 ^ 64) < numThreshold s t.ipRandCountRatio

end SndAttackerIPMergeTask

/-- Every packet is attributed to its sources and to nothing else. `residue` is the histogram that
the random decision was made on. -/
structure Attributed (pinfos : List PacketInfo) (r : AttackerIPMergeResult) (residue : IPCount)
    (mergedStats : GoMap String SIPBaseMergedStat) : Prop where
  once : ∀ key g, mergedStats.lookup key = some g → g.ipIdxs.Nodup
  oneGroup : ∀ key key' g g' i, mergedStats.lookup key = some g → mergedStats.lookup key' = some g' →
    i ∈ g.ipIdxs → i ∈ g'.ipIdxs → key = key'
  attackers : ∀ i info, pinfos[i]? = some info → InNets r.attackerIPNets (info.field "SIP") →
    ∃ key g, mergedStats.lookup key = some g ∧ i ∈ g.ipIdxs ∧
      (∃ n ∈ r.attackerIPNets, n.text = key) ∧
      ∀ n ∈ r.attackerIPNets, n.text = key → n.Covers (uiton (info.field "SIP"))
  random : r.isRand = true → ∀ i, (∃ g, mergedStats.lookup "random" = some g ∧ i ∈ g.ipIdxs) ↔
    ∃ info, pinfos[i]? = some info ∧ info.field "SIP" ∈ residue
  noRandom : r.isRand = false → mergedStats.lookup "random" = none
  counts : ∀ key g, mergedStats.lookup key = some g → g.Counts

section Attribution

variable {pinfos : List PacketInfo} {r : AttackerIPMergeResult} {df : IPCount} (hostNicSign : String)

theorem sourcesOf_of_empty (nets : List NetIPNet) {isRand : Bool} {df : IPCount}
    (h : isRand = true → df = ∅) (info : PacketInfo) : sourcesOf nets isRand df info =
      ((nets.find? fun n => n.contains (uiton (info.field "SIP"))).map NetIPNet.text).toList := by
  unfold sourcesOf
  rw [if_neg, List.append_nil]
  intro ⟨hrand, hin⟩
  rw [h hrand] at hin
  exact AList.notMem_empty _ hin

/-- Where a decision for random hands on nothing, the groups are right exactly if there was nothing
to hand on. -/
theorem attributed_iff (hshort : ∀ n ∈ r.attackerIPNets, n.Short) (hempty : r.isRand = true → r.randIPCountDF = ∅)
    (hsub : ∀ ip ∈ df, ∃ info ∈ pinfos, info.field "SIP" = ip) :
    Attributed pinfos r df (sipBaseMerge hostNicSign r.attackerIPNets r.isRand r.randIPCountDF pinfos) ↔
      (r.isRand = true → ∀ ip, ip ∉ df) := by
  have hsrc := sourcesOf_of_empty r.attackerIPNets hempty
  have hmem : ∀ key i, (∃ g, (sipBaseMerge hostNicSign r.attackerIPNets r.isRand r.randIPCountDF
      pinfos).lookup key = some g ∧ i ∈ g.ipIdxs) ↔ ∃ info, pinfos[i]? = some info ∧
        ∃ n, r.attackerIPNets.find? (fun n => n.contains (uiton (info.field "SIP"))) = some n ∧
          n.text = key := by
    intro key i
    rw [mem_group_iff]
    simp only [hsrc, Option.mem_toList, Option.map_eq_some_iff]
  have hrandom : ∀ i, ¬ ∃ g, (sipBaseMerge hostNicSign r.attackerIPNets r.isRand r.randIPCountDF
      pinfos).lookup "random" = some g ∧ i ∈ g.ipIdxs := by
    intro i hi
    obtain ⟨_, _, n, _, hn⟩ := (hmem "random" i).mp hi
    exact n.text_ne_random hn
  apply Iff.intro
  · intro h hrand ip hip
    obtain ⟨info, hinfo, hsip⟩ := hsub ip hip
    obtain ⟨i, hi⟩ := List.mem_iff_getElem?.mp hinfo
    exact hrandom i ((h.random hrand i).mpr ⟨info, hi, hsip ▸ hip⟩)
  · intro h
    refine ⟨fun _ _ hg => ipIdxs_nodup hostNicSign _ _ _ hg, ?_, ?_, ?_, ?_,
      fun _ _ hg => (lookup_sipBaseMerge hostNicSign _ _ _ hg).1⟩
    · intro key key' g g' i hg hg' hi hi'
      obtain ⟨info, hin, n, hn, hkey⟩ := (hmem key i).mp ⟨g, hg, hi⟩
      obtain ⟨info', hin', n', hn', hkey'⟩ := (hmem key' i).mp ⟨g', hg', hi'⟩
      cases hin.symm.trans hin'
      cases hn.symm.trans hn'
      exact hkey.symm.trans hkey'
    · intro i info hin ⟨n, hn, hcov⟩
      have hsome : (r.attackerIPNets.find? fun n => n.contains (uiton (info.field "SIP"))).isSome := by
        rw [List.find?_isSome]
        exact ⟨n, hn, ((hshort n hn).contains_iff _).mpr hcov⟩
      obtain ⟨first, hfirst⟩ := Option.isSome_iff_exists.mp hsome
      have hin' := List.mem_of_find?_eq_some hfirst
      have hcontains : first.contains (uiton (info.field "SIP")) = true := by
        simpa using List.find?_some hfirst
      have hcovers := ((hshort first hin').contains_iff _).mp hcontains
      obtain ⟨g, hg, hi⟩ := (hmem first.text i).mpr ⟨info, hin, first, hfirst, rfl⟩
      refine ⟨first.text, g, hg, hi, ⟨first, hin', rfl⟩, ?_⟩
      intro m hm htext
      exact ((hshort m hm).covers_of_text (hshort first hin') htext _).mpr hcovers
    · intro hrand i
      apply iff_of_false (hrandom i)
      intro ⟨info, _, hdf⟩
      exact h hrand _ hdf
    · intro _
      cases hlook : (sipBaseMerge hostNicSign r.attackerIPNets r.isRand r.randIPCountDF pinfos).lookup "random" with
      | none => rfl
      | some g =>
        obtain ⟨⟨key, info, i⟩, he, hkey⟩ := (exists_lookup_sipBaseMerge _ _ _ _).mp ⟨g, hlook⟩
        dsimp only at hkey
        subst hkey
        exact absurd ((mem_group_iff hostNicSign _ _ _).mpr ⟨info, (mem_attributions _ _ _).mp he⟩) (hrandom i)

end Attribution

namespace SndAttackerIPMergeTask

/-- The two tasks attribute every packet to its sources exactly if there is no random attack. -/
theorem process_attributes_iff {F : Type} [FloatArith F] (t : SndAttackerIPMergeOptions F)
    (ord : Nat → Order UInt32 Int) (nord : Order UInt32 Unit) (hostNicSign : String) (pinfos : List PacketInfo)
    (normalIps : GoMap UInt32 Unit) :
    ∃ r df, process t ord nord (getFeatureStatistics pinfos "SIP") normalIps = some r ∧
      residue t ord nord (getFeatureStatistics pinfos "SIP") normalIps = some df ∧
      (Attributed pinfos r df
          (sipBaseMerge hostNicSign r.attackerIPNets r.isRand r.randIPCountDF pinfos) ↔
        NoRandomAttack t (ipCountSum (ord 0) (getFeatureStatistics pinfos "SIP"))
          (getFeatureStatistics pinfos "SIP") normalIps) := by
  obtain ⟨m, hm⟩ : ∃ m, m = getFeatureStatistics pinfos "SIP" := ⟨_, rfl⟩
  rw [← hm]
  obtain ⟨s, r, df, hs, hr, hdf, hout⟩ := process_outcome t ord nord m normalIps
  have hshort : ∀ n ∈ r.attackerIPNets, n.Short := hout.nets ▸ steps_short t ord hs
  have hempty : r.isRand = true → r.randIPCountDF = ∅ := fun h => by rw [hout.handed, if_pos h]
  have hsub : ∀ ip ∈ df, ∃ info ∈ pinfos, info.field "SIP" = ip := by
    intro ip hip
    obtain ⟨c, hc⟩ := mem_iff_lookup.mp hip
    have hin := (List.mem_filter.mp (hout.residue.mem_iff.mp (mem_pairs.mpr hc))).1
    have hrest := (Tier.rest_sublist.trans (Tier.rest_sublist.trans Tier.rest_sublist)).subset hin
    have hmem : ip ∈ m := mem_iff_lookup.mpr ⟨c, mem_pairs.mp hrest⟩
    rw [hm] at hmem
    exact (mem_accumulate _ _ _).mp hmem
  refine ⟨r, df, hr, hdf, ?_⟩
  rw [attributed_iff hostNicSign hshort hempty hsub, hout.decision, NoRandomAttack, or_comm, ← not_le, ← imp_iff_not_or]
  apply imp_congr_right
  intro _
  rw [List.eq_nil_iff_forall_not_mem]
  apply Iff.intro
  · intro h e he
    exact h e.1 (mem_iff_lookup.mpr ⟨e.2, mem_pairs.mp (hout.residue.mem_iff.mpr he)⟩)
  · intro h ip hip
    obtain ⟨c, hc⟩ := mem_iff_lookup.mp hip
    exact h (ip, c) (hout.residue.mem_iff.mp (mem_pairs.mpr hc))

/-- A packet each from addresses of many networks. -/
def randomPackets : List PacketInfo :=
  (List.range 24).map fun k => AList.insert "SIP" (0x0A000001 + 65536 * UInt32.ofNat k) ∅

/-- The flood is called random, and none of its packets is in a group. -/
theorem process_drops_random : ¬ ∃ r df, process (usualOptions Float) (fun _ => Order.stored) Order.stored
    (getFeatureStatistics randomPackets "SIP") ∅ = some r ∧
      residue (usualOptions Float) (fun _ => Order.stored) Order.stored
        (getFeatureStatistics randomPackets "SIP") ∅ = some df ∧
      Attributed randomPackets r df
        (sipBaseMerge "eth0" r.attackerIPNets r.isRand r.randIPCountDF randomPackets) := by
  intro ⟨r, df, hr, hdf, h⟩
  have hrun : (process (usualOptions Float) (fun _ => Order.stored) Order.stored
      (getFeatureStatistics randomPackets "SIP") ∅).map (fun r => (r.isRand,
        ((sipBaseMerge "eth0" r.attackerIPNets r.isRand r.randIPCountDF randomPackets).lookup
          "random").isNone)) = some (true, true) := by decide +kernel
  have hres : (residue (usualOptions Float) (fun _ => Order.stored) Order.stored
      (getFeatureStatistics randomPackets "SIP") ∅).map (fun df => decide (0x0A000001 ∈ df)) =
        some true := by decide +kernel
  rw [hr, Option.map_some, Option.some.injEq, Prod.mk.injEq, Option.isNone_iff_eq_none] at hrun
  rw [hdf, Option.map_some, Option.some.injEq, decide_eq_true_eq] at hres
  obtain ⟨g, hg, _⟩ := (h.random hrun.1 0).mpr ⟨_, rfl, hres⟩
  rw [hrun.2] at hg
  cases hg

end SndAttackerIPMergeTask

end Dni
