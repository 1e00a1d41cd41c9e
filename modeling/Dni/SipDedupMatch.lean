import Mathlib.Tactic.FinCases
import Dni.SipDedupAgree

namespace Dni.DedupInput

variable (x : DedupInput)

/-- The labels of both sides give the same rules. -/
structure LabelsMatch : Prop where
  networks : ∀ p ∈ x.packets, ∀ n, x.source p = some n →
    (x.cppLabels (some n)).SameTexts (x.goLabels (some n)) p
  outside : x.isRand = true → ∀ p ∈ x.packets, x.source p = none →
    ∃ q ∈ x.packets, q.sip ∈ x.randomIPs ∧ (x.cppLabels none).tuple none p = (x.goLabels none).tuple none q
  random : x.isRand = true → ∀ q ∈ x.packets, q.sip ∈ x.randomIPs →
    ∃ p ∈ x.packets, x.source p = none ∧ (x.cppLabels none).tuple none p = (x.goLabels none).tuple none q

def CppTuple (e : FiveTuple) : Prop :=
  ∃ p ∈ x.packets, ∃ g, x.CppGroup p g ∧ e = (x.cppLabels g).tuple g p

def GoTuple (e : FiveTuple) : Prop :=
  ∃ p ∈ x.packets, ∃ g, x.GoGroup p g ∧ e = (x.goLabels g).tuple g p

theorem cppRule_cpp (o : Cpp.DedupOrders) (e : FiveTuple) : x.CppRule o (e.cpp x.hostNic) ↔ x.CppTuple e := by
  rw [cppRule_iff]
  apply Iff.intro
  · intro ⟨p, hp, g, hg, he⟩
    exact ⟨p, hp, g, hg, FiveTuple.cpp_inj he⟩
  · intro ⟨p, hp, g, hg, he⟩
    exact ⟨p, hp, g, hg, by rw [he]⟩

theorem goRule_go (o : SipDedupOrders) (e : FiveTuple) : x.GoRule o (e.go x.hostNic) ↔ x.GoTuple e := by
  rw [goRule_iff]
  apply Iff.intro
  · intro ⟨p, hp, g, hg, he⟩
    exact ⟨p, hp, g, hg, FiveTuple.go_inj he⟩
  · intro ⟨p, hp, g, hg, he⟩
    exact ⟨p, hp, g, hg, by rw [he]⟩

theorem agree_iff_tuples (o : Cpp.DedupOrders) (o' : SipDedupOrders) :
    x.Agree o o' ↔ ∀ e, x.CppTuple e ↔ x.GoTuple e := by
  apply Iff.intro
  · intro h e
    rw [← x.cppRule_cpp o, ← x.goRule_go o']
    exact h.same e
  · intro h
    refine ⟨?_, ?_, ?_⟩
    · intro rule hrule
      obtain ⟨p, _, g, _, hr⟩ := (x.cppRule_iff o rule).mp hrule
      exact ⟨_, hr⟩
    · intro rule hrule
      obtain ⟨p, _, g, _, hr⟩ := (x.goRule_iff o' rule).mp hrule
      exact ⟨_, hr⟩
    · intro e
      rw [cppRule_cpp, goRule_go]
      exact h e

/-- When the packets of one group have the same texts as a set, each has the same text. -/
theorem texts_agree {ps : List Cpp.Packet} {f : Cpp.Packet → UInt32} {l l' : String}
    (hto : ∀ p ∈ ps, ∃ q ∈ ps, ruleText l (f p) = ruleText l' (f q))
    (hfrom : ∀ q ∈ ps, ∃ p ∈ ps, ruleText l (f p) = ruleText l' (f q)) {p : Cpp.Packet} (hp : p ∈ ps) :
    ruleText l (f p) = ruleText l' (f p) := by
  have hconst : ∀ label v w, label ≠ "centralize" → ruleText label v = ruleText label w := by
    intro label v w hne
    rw [ruleText, ruleText, if_neg hne, if_neg hne]
  by_cases hl : l = l'
  · rw [hl]
  · by_cases hc : l' = "centralize"
    · -- the other label is the same for all packets
      obtain ⟨q, _, hq⟩ := hfrom p hp
      rw [← hq]
      exact hconst l _ _ fun h => hl (h.trans hc.symm)
    · obtain ⟨q, _, hq⟩ := hto p hp
      rw [hq]
      exact hconst l' _ _ hc

theorem cppTuple_some (n : Prefix) (e : FiveTuple) (he : e.source = some n) :
    x.CppTuple e ↔ ∃ p ∈ x.population (some n), e = (x.cppLabels (some n)).tuple (some n) p := by
  simp only [CppTuple, population, List.mem_filter, decide_eq_true_eq]
  apply Iff.intro
  · intro h
    rcases h with ⟨p, hp, g, hg, heq⟩
    have hgn : g = some n := by rw [← he, heq, FeatureLabels.tuple]
    subst hgn
    exact ⟨p, ⟨hp, hg.1⟩, heq⟩
  · intro h
    rcases h with ⟨p, ⟨hp, hsource⟩, heq⟩
    exact ⟨p, hp, some n, ⟨hsource, by simp⟩, heq⟩

theorem goTuple_some (n : Prefix) (e : FiveTuple) (he : e.source = some n) :
    x.GoTuple e ↔ ∃ p ∈ x.population (some n), e = (x.goLabels (some n)).tuple (some n) p := by
  simp only [GoTuple, population, List.mem_filter, decide_eq_true_eq]
  apply Iff.intro
  · intro h
    rcases h with ⟨p, hp, g, hg, heq⟩
    have hgn : g = some n := by rw [← he, heq, FeatureLabels.tuple]
    subst hgn
    exact ⟨p, ⟨hp, hg⟩, heq⟩
  · intro h
    rcases h with ⟨p, ⟨hp, hsource⟩, heq⟩
    exact ⟨p, hp, some n, hsource, heq⟩

theorem cppTuple_none (e : FiveTuple) (he : e.source = none) : x.CppTuple e ↔
    x.isRand = true ∧ ∃ p ∈ x.packets, x.source p = none ∧ e = (x.cppLabels none).tuple none p := by
  apply Iff.intro
  · intro h
    rcases h with ⟨p, hp, g, hg, heq⟩
    have hgn : g = none := by rw [← he, heq, FeatureLabels.tuple]
    subst hgn
    exact ⟨hg.2 rfl, p, hp, hg.1, heq⟩
  · intro h
    rcases h with ⟨hflag, p, hp, hsource, heq⟩
    exact ⟨p, hp, none, ⟨hsource, fun _ => hflag⟩, heq⟩

theorem goTuple_none (e : FiveTuple) (he : e.source = none) : x.GoTuple e ↔
    x.isRand = true ∧ ∃ p ∈ x.packets, p.sip ∈ x.randomIPs ∧ e = (x.goLabels none).tuple none p := by
  apply Iff.intro
  · intro h
    rcases h with ⟨p, hp, g, hg, heq⟩
    have hgn : g = none := by rw [← he, heq, FeatureLabels.tuple]
    subst hgn
    exact ⟨hg.1, p, hp, hg.2, heq⟩
  · intro h
    rcases h with ⟨hflag, p, hp, hsip, heq⟩
    exact ⟨p, hp, none, ⟨hflag, hsip⟩, heq⟩

/-- The rules of a network's packets are the same exactly when each packet has the same texts. -/
theorem network_iff (n : Prefix) : (∀ e : FiveTuple, e.source = some n → (x.CppTuple e ↔ x.GoTuple e)) ↔
    ∀ p ∈ x.population (some n), (x.cppLabels (some n)).SameTexts (x.goLabels (some n)) p := by
  apply Iff.intro
  · intro h
    have hto : ∀ p ∈ x.population (some n), ∃ q ∈ x.population (some n),
        (x.cppLabels (some n)).tuple (some n) p = (x.goLabels (some n)).tuple (some n) q := by
      intro p hp
      exact (x.goTuple_some n _ rfl).mp ((h _ rfl).mp ((x.cppTuple_some n _ rfl).mpr ⟨p, hp, rfl⟩))
    have hfrom : ∀ q ∈ x.population (some n), ∃ p ∈ x.population (some n),
        (x.cppLabels (some n)).tuple (some n) p = (x.goLabels (some n)).tuple (some n) q := by
      intro q hq
      obtain ⟨p, hp, heq⟩ := (x.cppTuple_some n _ rfl).mp ((h _ rfl).mpr ((x.goTuple_some n _ rfl).mpr ⟨q, hq, rfl⟩))
      exact ⟨p, hp, heq.symm⟩
    have hfeature : ∀ (f : Cpp.Packet → UInt32) (l l' : String),
        (∀ p q, (x.cppLabels (some n)).tuple (some n) p = (x.goLabels (some n)).tuple (some n) q →
          ruleText l (f p) = ruleText l' (f q)) →
        ∀ p ∈ x.population (some n), ruleText l (f p) = ruleText l' (f p) := by
      intro f l l' hread p hp
      refine texts_agree ?_ ?_ hp
      · intro p hp
        obtain ⟨q, hq, heq⟩ := hto p hp
        exact ⟨q, hq, hread p q heq⟩
      · intro q hq
        obtain ⟨p, hp, heq⟩ := hfrom q hq
        exact ⟨p, hp, hread p q heq⟩
    intro p hp
    exact ⟨hfeature _ _ _ (fun _ _ heq => congrArg FiveTuple.sport heq) p hp,
      hfeature _ _ _ (fun _ _ heq => congrArg FiveTuple.dport heq) p hp,
      hfeature _ _ _ (fun _ _ heq => congrArg FiveTuple.length heq) p hp⟩
  · intro h e he
    rw [x.cppTuple_some n e he, x.goTuple_some n e he]
    apply exists_congr
    intro p
    apply and_congr_right
    intro hp
    rw [FeatureLabels.tuple_eq_iff.mpr (h p hp)]

theorem agree_iff_labelsMatch (o : Cpp.DedupOrders) (o' : SipDedupOrders) : x.Agree o o' ↔ x.LabelsMatch := by
  have hmem : ∀ p n, p ∈ x.population (some n) ↔ p ∈ x.packets ∧ x.source p = some n := by
    intro p n
    rw [population, List.mem_filter, decide_eq_true_eq]
  rw [agree_iff_tuples]
  apply Iff.intro
  · intro h
    refine ⟨?_, ?_, ?_⟩
    · intro p hp n hsource
      exact (x.network_iff n).mp (fun e _ => h e) p ((hmem p n).mpr ⟨hp, hsource⟩)
    · intro hflag p hp hsource
      have hcpp := (x.cppTuple_none _ rfl).mpr ⟨hflag, p, hp, hsource, rfl⟩
      exact ((x.goTuple_none _ rfl).mp ((h _).mp hcpp)).2
    · intro hflag q hq hsip
      have hgo := (x.goTuple_none _ rfl).mpr ⟨hflag, q, hq, hsip, rfl⟩
      obtain ⟨_, p, hp, hsource, heq⟩ := (x.cppTuple_none _ rfl).mp ((h _).mpr hgo)
      exact ⟨p, hp, hsource, heq.symm⟩
  · intro h e
    cases he : e.source with
    | some n =>
      refine (x.network_iff n).mpr ?_ e he
      intro p hp
      obtain ⟨hin, hsource⟩ := (hmem p n).mp hp
      exact h.networks p hin n hsource
    | none =>
      rw [x.cppTuple_none e he, x.goTuple_none e he]
      apply and_congr_right
      intro hflag
      apply Iff.intro
      · intro h
        rcases h with ⟨p, hp, hsource, heq⟩
        obtain ⟨q, hq, hsip, hpq⟩ := h.outside hflag p hp hsource
        exact ⟨q, hq, hsip, heq.trans hpq⟩
      · intro h
        rcases h with ⟨q, hq, hsip, heq⟩
        obtain ⟨p, hp, hsource, hpq⟩ := h.random hflag q hq hsip
        exact ⟨p, hp, hsource, heq.trans hpq.symm⟩

/-- The number of the label that the counts of a feature call for. -/
def Called (few regular irregular : Prop) : Fin 4 → Prop
  | 0 => few
  | 1 => ¬ few ∧ regular
  | 2 => ¬ few ∧ ¬ regular ∧ irregular
  | 3 => ¬ few ∧ ¬ regular ∧ ¬ irregular

theorem called_iff {few regular irregular : Prop} [Decidable few] [Decidable regular] [Decidable irregular]
    (i : Fin 4) : Called few regular irregular i ↔
      (if few then 0 else if regular then 1 else if irregular then 2 else 3) = i := by
  by_cases hf : few
  · rw [if_pos hf]
    fin_cases i <;> simp [Called, hf]
  · rw [if_neg hf]
    by_cases hr : regular
    · rw [if_pos hr]
      fin_cases i <;> simp [Called, hf, hr]
    · rw [if_neg hr]
      by_cases hi : irregular
      · rw [if_pos hi]
        fin_cases i <;> simp [Called, hf, hr, hi]
      · rw [if_neg hi]
        fin_cases i <;> simp [Called, hf, hr, hi]

/-- C++ counts the different values, once against the threshold as a `size_t` and then against the
ratios of their own number. -/
def CppCalls (vals : List UInt32) : Fin 4 → Prop :=
  Called ((vals.dedup.length : Int) < Cpp.toSizeT x.task.numKeyLenThresh)
    ((diffTypeNum vals.dedup : ℚ) ≤ vals.dedup.length * x.task.numRatioMin)
    (vals.dedup.length * x.task.numRatioMax ≤ (diffTypeNum vals.dedup : ℚ))

/-- Go counts the different values against the threshold, and against the whole parts of the ratios of
the number of packets. -/
def GoCalls (vals : List UInt32) : Fin 4 → Prop :=
  Called ((vals.dedup.length : Int) < x.task.numKeyLenThresh)
    ((diffTypeNum vals.dedup : Int) ≤ toInt (vals.length * x.task.numRatioMin))
    (toInt (vals.length * x.task.numRatioMax) ≤ (diffTypeNum vals.dedup : Int))

/-- The labels that the counts of `vals` call for give `v` in C++ the text of `w` in Go. -/
def SameText (vals : List UInt32) (v w : UInt32) : Prop :=
  ∀ i j, x.CppCalls vals i → x.GoCalls vals j → ruleText x.task.numLabel[i] v = ruleText x.task.numLabel[j] w

/-- The rule of `p` in C++ is the rule of `q` in Go, by the counts of their group. -/
structure SameRule (group : Option Prefix) (p q : Cpp.Packet) : Prop where
  dip : p.dip = q.dip
  protocol : p.protocol = q.protocol
  sport : x.SameText ((x.population group).map Cpp.Packet.sport) p.sport q.sport
  dport : x.SameText ((x.population group).map Cpp.Packet.dport) p.dport q.dport
  length : x.SameText ((x.population group).map Cpp.Packet.length) p.length q.length

/-- The inputs on which the two tasks agree. In a network the counts of each feature call for labels with
the same text, or for such that the numbers read the same. With a random attack, each packet outside the
networks has the C++ rule that some packet of a random address has in Go, and each packet of a random
address the Go rule that some packet outside has in C++. -/
structure Matches : Prop where
  networks : ∀ p ∈ x.packets, ∀ n, x.source p = some n → x.SameRule (some n) p p
  outside : x.isRand = true → ∀ p ∈ x.packets, x.source p = none →
    ∃ q ∈ x.packets, q.sip ∈ x.randomIPs ∧ x.SameRule none p q
  random : x.isRand = true → ∀ q ∈ x.packets, q.sip ∈ x.randomIPs →
    ∃ p ∈ x.packets, x.source p = none ∧ x.SameRule none p q

theorem cppCalls_iff (vals : List UInt32) (i : Fin 4) :
    x.CppCalls vals i ↔ x.task.numberStatIndex vals.dedup = i := by
  rw [CppCalls, called_iff]
  rfl

theorem goCalls_iff (vals : List UInt32) (j : Fin 4) :
    x.GoCalls vals j ↔ x.task.go.numStats.scoreOf vals = j.val := by
  rw [GoCalls, called_iff, Fin.ext_iff, NumberThreshLabels.scoreOf]
  simp only [apply_ite Fin.val]
  rfl

theorem sameText_iff (vals : List UInt32) (v w : UInt32) : x.SameText vals v w ↔
    ruleText (x.task.labelOf vals) v = ruleText (x.task.go.numStats.labelOf vals) w := by
  have hlt := x.task.go.numStats.scoreOf_lt vals
  have hgo : x.task.go.numStats.labelOf vals = x.task.numLabel[x.task.go.numStats.scoreOf vals] := by
    rw [NumberThreshLabels.labelOf, show x.task.go.numStats.labels = x.task.numLabel.toList from rfl,
      List.getElem?_eq_getElem (by simpa using hlt), Option.getD_some, Vector.getElem_toList]
  rw [hgo]
  apply Iff.intro
  · intro h
    exact h _ ⟨_, hlt⟩ ((x.cppCalls_iff vals _).mpr rfl) ((x.goCalls_iff vals _).mpr rfl)
  · intro h i j hi hj
    rw [cppCalls_iff] at hi
    rw [goCalls_iff] at hj
    have hscore : j = ⟨_, hlt⟩ := Fin.ext hj.symm
    subst hi hscore
    exact h

theorem sameRule_iff (group : Option Prefix) (p q : Cpp.Packet) : x.SameRule group p q ↔
    (x.cppLabels group).tuple group p = (x.goLabels group).tuple group q := by
  simp only [FeatureLabels.tuple, FiveTuple.mk.injEq, true_and]
  apply Iff.intro
  · intro h
    exact ⟨h.dip, (x.sameText_iff _ _ _).mp h.sport, (x.sameText_iff _ _ _).mp h.dport, h.protocol,
      (x.sameText_iff _ _ _).mp h.length⟩
  · intro h
    rcases h with ⟨hdip, hsport, hdport, hproto, hlength⟩
    exact ⟨hdip, hproto, (x.sameText_iff _ _ _).mpr hsport, (x.sameText_iff _ _ _).mpr hdport,
      (x.sameText_iff _ _ _).mpr hlength⟩

/-- The two tasks write the same rules exactly on the inputs that match. -/
theorem agree_iff_matches (o : Cpp.DedupOrders) (o' : SipDedupOrders) : x.Agree o o' ↔ x.Matches := by
  have hnetwork : ∀ p n, x.SameRule (some n) p p ↔ (x.cppLabels (some n)).SameTexts (x.goLabels (some n)) p :=
    fun p n => (x.sameRule_iff (some n) p p).trans FeatureLabels.tuple_eq_iff
  rw [agree_iff_labelsMatch]
  apply Iff.intro
  · intro ⟨hnetworks, houtside, hrandom⟩
    simp only [← hnetwork, ← sameRule_iff] at hnetworks houtside hrandom
    exact ⟨hnetworks, houtside, hrandom⟩
  · intro ⟨hnetworks, houtside, hrandom⟩
    simp only [hnetwork, sameRule_iff] at hnetworks houtside hrandom
    exact ⟨hnetworks, houtside, hrandom⟩

/-- One packet of a random address, one of an attacker network, and one of neither. -/
def mixed : DedupInput where
  task := Cpp.SndSIPBaseMergeDeDupTask.usual ℚ
  networks := [⟨0x02020200, 24, by omega, by omega⟩]
  isRand := true
  randomIPs := [0x01010101]
  histogram := (∅ : IPCount).insert 0x01010101 1
  mem_histogram := by
    intro ip
    rw [AList.mem_insert]
    simp
  hostNic := "eth0"
  packets := Cpp.SndSIPBaseMergeDeDupTask.mixedPackets

/-- The packet of neither has a rule in C++ and none in Go. -/
theorem mixed_not_agree : ¬ mixed.Agree Cpp.DedupOrders.stored ⟨GoMap.Order.stored, GoMap.Order.stored⟩ := by
  intro h
  have hsource : mixed.source ⟨0x09090909, 1003, 22, 6, 60, 0x0A000001⟩ = none := by decide +kernel
  have hcpp := (mixed.cppTuple_none _ rfl).mpr ⟨rfl, ⟨0x09090909, 1003, 22, 6, 60, 0x0A000001⟩,
    by decide +kernel, hsource, rfl⟩
  have hgo := ((mixed.agree_iff_tuples _ _).mp h _).mp hcpp
  obtain ⟨_, q, hq, hsip, heq⟩ := (mixed.goTuple_none _ rfl).mp hgo
  have hall : ∀ q ∈ mixed.packets, q.sip ∈ mixed.randomIPs → q.protocol ≠ 6 := by decide +kernel
  exact hall q hq hsip (congrArg FiveTuple.proto heq).symm

end Dni.DedupInput
