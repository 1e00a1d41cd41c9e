import Dni.FloodSources

namespace Dni.Dms

open Bytes Loops

/-- The addresses that a rule's source text stands for. -/
def SrcCovers (src : String) (a : UInt32) : Prop := ∃ n, atoin src = some n ∧ n.Covers a

theorem not_srcCovers_empty (a : UInt32) : ¬ SrcCovers "" a := by
  have h : atoin "" = none := by decide
  intro h
  rcases h with ⟨n, hn, _⟩
  rw [h] at hn
  cases hn

theorem srcCovers_uitoa {a b : UInt32} : SrcCovers (uitoa a) b ↔ b = a := by
  have hand : ∀ x : UInt32, x &&& uint32Max = x := fun x => by
    rw [show uint32Max = -1 from rfl, UInt32.and_neg_one]
  simp [SrcCovers, atoin_uitoa, IPNet.Covers, hand]

theorem mapM_toIPNets_net (nets : List NetIPNet) :
    (nets.map fun n => (IRange.net n.ip n.mask : IRange IP)).mapM IRange.toIPNets =
      some (nets.map fun n => [n]) := by
  rw [mapM_eq_some_iff, List.forall₂_map_left_iff, List.forall₂_map_right_iff, List.forall₂_same]
  intro n _
  rfl

/-- The merged texts stand for exactly the addresses that went in. -/
theorem mergeIps_spec (ch : Choices) {ips : List IPCount} (h : ∀ c ∈ ips, ∃ a, c.ip = uitoa a) :
    ∃ ss, mergeIps ch ips = some ss ∧
      (∀ a, (∃ s ∈ ss, SrcCovers s a) ↔ ∃ c ∈ ips, c.ip = uitoa a) ∧ ∀ s ∈ ss, s ≠ "" := by
  have hparse : ∀ c ∈ ips, ∀ a, c.ip = uitoa a →
      (parseIP c.ip.toList).getD [] = v4InV6Prefix ++ uiton a := fun c _ a ha => by
    rw [ha, parseIP_uitoa, Option.getD_some]
  have hvalid : ∀ i ∈ ips.map fun c => (IRange.ip ((parseIP c.ip.toList).getD []) : IRange IP),
      i.Valid := by
    intro i hi
    obtain ⟨c, hc, rfl⟩ := List.mem_map.mp hi
    obtain ⟨a, ha⟩ := h c hc
    rw [hparse c hc a ha]
    exact Or.inr rfl
  obtain ⟨nets, hnets, hin, hcan, _⟩ := mergeIRanges_union ch.byStart
    (fun b => ∃ c ∈ ips, b = (parseIP c.ip.toList).getD []) hvalid fun b => by simp [IRange.Covers]
  have hstr : ∀ n ∈ nets, ∃ s, n.string = some s ∧
      ∃ m, atoin s = some m ∧ ∀ a, m.Covers a ↔ n.Covers (v4InV6Prefix ++ uiton a) := by
    intro n hn
    obtain ⟨c, hc, hb⟩ := (hin n.ip).mp ⟨n, hn, n.covers_ip⟩
    obtain ⟨a, ha⟩ := h c hc
    rw [hparse c hc a ha] at hb
    obtain ⟨k, hk, rfl⟩ := (hcan n hn).mapped hb
    obtain ⟨s, m, hs, hm, hiff⟩ := atoin_string (length_uiton a) hk
    exact ⟨s, hs, m, hm, hiff⟩
  obtain ⟨ss, hss, hf⟩ := mapM_forall₂ hstr
  refine ⟨ss, ?_, fun a => ?_, fun s hs => ?_⟩
  · rw [mergeIps, hnets, Option.bind_some, mapM_toIPNets_net, Option.bind_some, ← List.flatMap_def,
      List.flatMap_singleton', hss]
  · have hmap : (∃ s ∈ ss, SrcCovers s a) ↔ ∃ n ∈ nets, n.Covers (v4InV6Prefix ++ uiton a) := by
      constructor
      · intro h
        rcases h with ⟨s, hs, n, hn, hc⟩
        obtain ⟨x, hx, m, hm, hiff⟩ := forall₂_exists_right hf.flip hs
        cases hm.symm.trans hn
        exact ⟨x, hx, (hiff a).mp hc⟩
      · intro h
        rcases h with ⟨x, hx, hc⟩
        obtain ⟨s, hs, m, hm, hiff⟩ := forall₂_exists_right hf hx
        exact ⟨s, hs, m, hm, (hiff a).mpr hc⟩
    rw [hmap, hin]
    constructor
    · intro h
      rcases h with ⟨c, hc, hb⟩
      obtain ⟨x, hx⟩ := h c hc
      rw [hparse c hc x hx, List.append_cancel_left_eq, uiton_inj] at hb
      exact ⟨c, hc, hb ▸ hx⟩
    · intro h
      rcases h with ⟨c, hc, ha⟩
      exact ⟨c, hc, (hparse c hc a ha).symm⟩
  · rintro rfl
    obtain ⟨x, _, m, hm, _⟩ := forall₂_exists_right hf.flip hs
    exact not_srcCovers_empty m.ipAddr ⟨m, hm, rfl⟩

end Dni.Dms
