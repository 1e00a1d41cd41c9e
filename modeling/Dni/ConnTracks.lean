import Dni.FloodDetection

namespace Dni.Dms

open GoMap

/-- What the table of connections tells; the flood detector reads the established peers only. -/
structure CtTables extends CtInfo where
  nat : GoMap String Unit
  rtd : GoMap String Unit

/-- An entry of the connection table; a missing field reads as the empty text. -/
abbrev CtEntry := GoMap String String

def CtEntry.field (conntrack : CtEntry) (name : String) : String := (conntrack.lookup name).getD ""

def isLocal (ip : String) (ipNic : GoMap String String) : Bool := (ipNic.lookup ip).isSome

section Parse

-- `isGlobalUnicast` tells of a text whether `net.ParseIP` reads it and the address is a global unicast one
variable (isGlobalUnicast : String → Bool) (ipNic : GoMap String String) (filter : GoMap String Unit)

def parseConntrackTCP (ct : CtTables) (conntrack : CtEntry) : CtTables :=
  if isLocal (conntrack.field "oSIP") ipNic && isLocal (conntrack.field "oDIP") ipNic then ct
  else if !isGlobalUnicast (conntrack.field "oDIP") then ct
  else if isLocal (conntrack.field "oSIP") ipNic then
    { ct with est := ct.est.insert (conntrack.field "oDIP") () }
  else if isLocal (conntrack.field "oDIP") ipNic && conntrack.field "oDIP" = conntrack.field "rSIP" then
    if conntrack.field "oDIP" ∉ filter then ct
    else if conntrack.field "status" = "ESTABLISHED" then
      { ct with est := ct.est.insert (conntrack.field "oSIP") () }
    else if conntrack.field "status" = "TIME_WAIT" ∨ conntrack.field "status" = "CLOSE" then
      if conntrack.field "flag" = "[ASSURED]" then { ct with est := ct.est.insert (conntrack.field "oSIP") () } else ct
    else ct
  else if isLocal (conntrack.field "rDIP") ipNic then
    { ct with nat := (ct.nat.insert "oSIP" ()).insert "rSIP" () }
  else { ct with rtd := (ct.rtd.insert "oSIP" ()).insert "oDIP" () }

def parseConntrackICMP (ct : CtTables) (conntrack : CtEntry) : CtTables :=
  if isLocal (conntrack.field "oSIP") ipNic && isLocal (conntrack.field "oDIP") ipNic then ct
  else if !isGlobalUnicast (conntrack.field "oDIP") then ct
  else if isLocal (conntrack.field "oSIP") ipNic then
    { ct with est := ct.est.insert (conntrack.field "oDIP") () }
  else if isLocal (conntrack.field "oDIP") ipNic && conntrack.field "oDIP" = conntrack.field "rSIP" then ct
  else if isLocal (conntrack.field "rDIP") ipNic then
    { ct with nat := (ct.nat.insert "oSIP" ()).insert "rSIP" () }
  else { ct with rtd := (ct.rtd.insert "oSIP" ()).insert "oDIP" () }

/-- One round of the loop. -/
def parseConntrackStep (ct : CtTables) (conntrack : CtEntry) : CtTables :=
  if conntrack.field "Proto" = "tcp" then parseConntrackTCP isGlobalUnicast ipNic filter ct conntrack
  else if conntrack.field "Proto" = "icmp" then parseConntrackICMP isGlobalUnicast ipNic ct conntrack
  else ct

def parseConntrack (ct : CtTables) (conntracks : List CtEntry) : CtTables :=
  conntracks.foldl (parseConntrackStep isGlobalUnicast ipNic filter) ct

end Parse

/-- What an entry is: a connection of this host with a peer, a translated or a routed one, or none that counts. -/
inductive CtKind
  | other
  | est (peer : String)
  | nat
  | rtd
deriving DecidableEq

section Kinds

variable (isGlobalUnicast : String → Bool) (ipNic : GoMap String String) (filter : GoMap String Unit)

/-- An incoming connection of a filtered address counts when it is open, or was open and is assured. -/
def CtEntry.opened (conntrack : CtEntry) : Bool :=
  conntrack.field "status" = "ESTABLISHED" ∨
    (conntrack.field "status" = "TIME_WAIT" ∨ conntrack.field "status" = "CLOSE") ∧ conntrack.field "flag" = "[ASSURED]"

/-- The cascade of the two functions. -/
def CtEntry.kind (conntrack : CtEntry) : CtKind :=
  if conntrack.field "Proto" ≠ "tcp" ∧ conntrack.field "Proto" ≠ "icmp" then .other
  else if isLocal (conntrack.field "oSIP") ipNic && isLocal (conntrack.field "oDIP") ipNic then .other
  else if !isGlobalUnicast (conntrack.field "oDIP") then .other
  else if isLocal (conntrack.field "oSIP") ipNic then .est (conntrack.field "oDIP")
  else if isLocal (conntrack.field "oDIP") ipNic && conntrack.field "oDIP" = conntrack.field "rSIP" then
    if conntrack.field "Proto" = "tcp" ∧ conntrack.field "oDIP" ∈ filter ∧ conntrack.opened then
      .est (conntrack.field "oSIP")
    else .other
  else if isLocal (conntrack.field "rDIP") ipNic then .nat
  else .rtd

/-- What the loop records of an entry: for a translated or routed one the names of the fields. -/
def CtTables.record (ct : CtTables) : CtKind → CtTables
  | .other => ct
  | .est peer => { ct with est := ct.est.insert peer () }
  | .nat => { ct with nat := (ct.nat.insert "oSIP" ()).insert "rSIP" () }
  | .rtd => { ct with rtd := (ct.rtd.insert "oSIP" ()).insert "oDIP" () }

theorem CtTables.record_ite (ct : CtTables) (p : Prop) [Decidable p] (a b : CtKind) :
    ct.record (if p then a else b) = if p then ct.record a else ct.record b := apply_ite ct.record p a b

theorem parseConntrackStep_eq (ct : CtTables) (conntrack : CtEntry) :
    parseConntrackStep isGlobalUnicast ipNic filter ct conntrack =
      ct.record (conntrack.kind isGlobalUnicast ipNic filter) := by
  rw [parseConntrackStep, CtEntry.kind]
  by_cases htcp : conntrack.field "Proto" = "tcp"
  · rw [if_pos htcp, if_neg fun h => h.1 htcp, parseConntrackTCP]
    simp only [CtTables.record_ite, htcp, true_and]
    -- the two are written alike but for an incoming connection of a local address
    refine if_congr Iff.rfl rfl (if_congr Iff.rfl rfl (if_congr Iff.rfl rfl (if_congr Iff.rfl ?_ rfl)))
    by_cases hfilter : conntrack.field "oDIP" ∈ filter
    · rw [if_neg (not_not_intro hfilter), CtEntry.opened]
      by_cases hopen : conntrack.field "status" = "ESTABLISHED"
      · rw [if_pos hopen, if_pos ⟨hfilter, decide_eq_true (Or.inl hopen)⟩]
        rfl
      · rw [if_neg hopen]
        by_cases hclosed : conntrack.field "status" = "TIME_WAIT" ∨ conntrack.field "status" = "CLOSE"
        · rw [if_pos hclosed]
          by_cases hflag : conntrack.field "flag" = "[ASSURED]"
          · rw [if_pos hflag, if_pos ⟨hfilter, decide_eq_true (Or.inr ⟨hclosed, hflag⟩)⟩]
            rfl
          · rw [if_neg hflag, if_neg fun h => (of_decide_eq_true h.2).elim hopen fun h => hflag h.2]
            rfl
        · rw [if_neg hclosed, if_neg fun h => (of_decide_eq_true h.2).elim hopen fun h => hclosed h.1]
          rfl
    · rw [if_pos hfilter, if_neg fun h => hfilter h.1]
      rfl
  · rw [if_neg htcp]
    by_cases hicmp : conntrack.field "Proto" = "icmp"
    · rw [if_pos hicmp, if_neg fun h => h.2 hicmp, parseConntrackICMP]
      simp only [CtTables.record_ite]
      refine if_congr Iff.rfl rfl (if_congr Iff.rfl rfl (if_congr Iff.rfl rfl (if_congr Iff.rfl ?_ rfl)))
      rw [if_neg fun h => htcp h.1]
      rfl
    · rw [if_neg hicmp, if_pos ⟨htcp, hicmp⟩]
      rfl

end Kinds

section Run

variable (isGlobalUnicast : String → Bool) (ipNic : GoMap String String) (filter : GoMap String Unit)

/-- The addresses of the entries of a kind, each given by the two fields of it. -/
def Addresses (kind : CtKind) (first second : String) (conntracks : List CtEntry) (s : String) : Prop :=
  ∃ e ∈ conntracks, e.kind isGlobalUnicast ipNic filter = kind ∧ (s = e.field first ∨ s = e.field second)

/-- What the sets have to be after the call. -/
structure CtRight (ct ct' : CtTables) (conntracks : List CtEntry) : Prop where
  nat : ∀ s, s ∈ ct'.nat ↔ s ∈ ct.nat ∨ Addresses isGlobalUnicast ipNic filter .nat "oSIP" "rSIP" conntracks s
  rtd : ∀ s, s ∈ ct'.rtd ↔ s ∈ ct.rtd ∨ Addresses isGlobalUnicast ipNic filter .rtd "oSIP" "oDIP" conntracks s
  est : ∀ s, s ∈ ct'.est ↔ s ∈ ct.est ∨ ∃ e ∈ conntracks, e.kind isGlobalUnicast ipNic filter = .est s
  only : ∀ s, s ∈ ct'.nat ∧ s ∉ ct.nat ∨ s ∈ ct'.rtd ∧ s ∉ ct.rtd ∨ s ∈ ct'.est ∧ s ∉ ct.est →
    ∃ e ∈ conntracks, s ∈ [e.field "oSIP", e.field "oDIP", e.field "rSIP", e.field "rDIP"]

/-- An entry of the kind does no harm: the names of the two fields are in the set or are addresses themselves, and the
addresses are in the set or are these names. -/
def NamesHarmless (kind : CtKind) (first second : String) (old : GoMap String Unit) (conntracks : List CtEntry) : Prop :=
  (∃ e ∈ conntracks, e.kind isGlobalUnicast ipNic filter = kind) →
    (∀ s, s = first ∨ s = second → s ∈ old ∨ Addresses isGlobalUnicast ipNic filter kind first second conntracks s) ∧
      ∀ s, Addresses isGlobalUnicast ipNic filter kind first second conntracks s → s ∈ old ∨ s = first ∨ s = second

/-- The names of two fields go into a set when an entry of their kind is met. -/
theorem mem_record (ct : CtTables) (kind : CtKind) (s : String) :
    (s ∈ (ct.record kind).nat ↔ s ∈ ct.nat ∨ kind = .nat ∧ (s = "oSIP" ∨ s = "rSIP")) ∧
      (s ∈ (ct.record kind).rtd ↔ s ∈ ct.rtd ∨ kind = .rtd ∧ (s = "oSIP" ∨ s = "oDIP")) ∧
      (s ∈ (ct.record kind).est ↔ s ∈ ct.est ∨ kind = .est s) := by
  cases kind with
  | other => simp only [CtTables.record, reduceCtorEq, false_and, or_false, and_self]
  | est peer =>
    simp only [CtTables.record, AList.mem_insert, reduceCtorEq, false_and, or_false, true_and, CtKind.est.injEq]
    rw [or_comm, eq_comm]
  | nat =>
    simp only [CtTables.record, AList.mem_insert, reduceCtorEq, false_and, or_false, true_and, and_true]
    rw [← or_assoc, or_comm, or_comm (a := s = "rSIP")]
  | rtd =>
    simp only [CtTables.record, AList.mem_insert, reduceCtorEq, false_and, or_false, true_and, and_true]
    rw [← or_assoc, or_comm, or_comm (a := s = "oDIP")]

/-- The sets after the loop. -/
theorem mem_parseConntrack (ct : CtTables) (conntracks : List CtEntry) (s : String) :
    (s ∈ (parseConntrack isGlobalUnicast ipNic filter ct conntracks).nat ↔ s ∈ ct.nat ∨
        (∃ e ∈ conntracks, e.kind isGlobalUnicast ipNic filter = .nat) ∧ (s = "oSIP" ∨ s = "rSIP")) ∧
      (s ∈ (parseConntrack isGlobalUnicast ipNic filter ct conntracks).rtd ↔ s ∈ ct.rtd ∨
        (∃ e ∈ conntracks, e.kind isGlobalUnicast ipNic filter = .rtd) ∧ (s = "oSIP" ∨ s = "oDIP")) ∧
      (s ∈ (parseConntrack isGlobalUnicast ipNic filter ct conntracks).est ↔ s ∈ ct.est ∨
        ∃ e ∈ conntracks, e.kind isGlobalUnicast ipNic filter = .est s) := by
  rw [parseConntrack]
  induction conntracks generalizing ct with
  | nil => simp only [List.foldl_nil, List.not_mem_nil, false_and, exists_false, or_false, and_self]
  | cons e conntracks ih =>
    rw [List.foldl_cons, parseConntrackStep_eq]
    obtain ⟨hnat, hrtd, hest⟩ := ih (ct.record (e.kind isGlobalUnicast ipNic filter))
    obtain ⟨hnat', hrtd', hest'⟩ := mem_record ct (e.kind isGlobalUnicast ipNic filter) s
    rw [hnat, hrtd, hest, hnat', hrtd', hest']
    simp only [List.exists_mem_cons_iff, or_and_right, or_assoc, and_self]

/-- A set with the names of the fields is the set with the addresses exactly where the names do no harm. -/
theorem names_iff {kind : CtKind} {first second : String} {old : GoMap String Unit} {conntracks : List CtEntry} :
    (∀ s, s ∈ old ∨ (∃ e ∈ conntracks, e.kind isGlobalUnicast ipNic filter = kind) ∧ (s = first ∨ s = second) ↔
      s ∈ old ∨ Addresses isGlobalUnicast ipNic filter kind first second conntracks s) ↔
      NamesHarmless isGlobalUnicast ipNic filter kind first second old conntracks := by
  apply Iff.intro
  · intro h hex
    refine ⟨?_, ?_⟩
    · intro s hs
      exact (h s).mp (Or.inr ⟨hex, hs⟩)
    · intro s hs
      exact ((h s).mpr (Or.inr hs)).imp_right And.right
  · intro h s
    apply Iff.intro
    · intro hs
      obtain hold | ⟨hex, hs⟩ := hs
      · exact Or.inl hold
      · exact (h hex).1 s hs
    · intro hs
      obtain hold | hs := hs
      · exact Or.inl hold
      · obtain ⟨e, he, hkind, _⟩ := id hs
        exact ((h ⟨e, he, hkind⟩).2 s hs).imp_right fun hs => ⟨⟨e, he, hkind⟩, hs⟩

/-- The peer of an entry is one of its addresses. -/
theorem peer_mem {e : CtEntry} {s : String} (h : e.kind isGlobalUnicast ipNic filter = .est s) :
    s = e.field "oSIP" ∨ s = e.field "oDIP" := by
  unfold CtEntry.kind at h
  repeat' split at h
  all_goals cases h
  · exact Or.inr rfl
  · exact Or.inl rfl

/-- The call is right exactly where the names of the fields do no harm. -/
theorem parseConntrack_right_iff (ct : CtTables) (conntracks : List CtEntry) :
    CtRight isGlobalUnicast ipNic filter ct (parseConntrack isGlobalUnicast ipNic filter ct conntracks) conntracks ↔
      NamesHarmless isGlobalUnicast ipNic filter .nat "oSIP" "rSIP" ct.nat conntracks ∧
        NamesHarmless isGlobalUnicast ipNic filter .rtd "oSIP" "oDIP" ct.rtd conntracks := by
  have hmem := mem_parseConntrack isGlobalUnicast ipNic filter ct conntracks
  rw [← names_iff, ← names_iff]
  apply Iff.intro
  · intro h
    refine ⟨?_, ?_⟩
    · intro s
      rw [← (hmem s).1, h.nat]
    · intro s
      rw [← (hmem s).2.1, h.rtd]
  · intro ⟨hnat, hrtd⟩
    refine ⟨?_, ?_, ?_, ?_⟩
    · intro s
      rw [(hmem s).1, hnat]
    · intro s
      rw [(hmem s).2.1, hrtd]
    · intro s
      exact (hmem s).2.2
    · intro s hs
      rw [(hmem s).1, hnat, (hmem s).2.1, hrtd, (hmem s).2.2] at hs
      obtain ⟨hin, hout⟩ | ⟨hin, hout⟩ | ⟨hin, hout⟩ := hs
      · obtain ⟨e, he, _, hs | hs⟩ := hin.resolve_left hout
        · exact ⟨e, he, by simp [hs]⟩
        · exact ⟨e, he, by simp [hs]⟩
      · obtain ⟨e, he, _, hs | hs⟩ := hin.resolve_left hout
        · exact ⟨e, he, by simp [hs]⟩
        · exact ⟨e, he, by simp [hs]⟩
      · obtain ⟨e, he, hkind⟩ := hin.resolve_left hout
        obtain hs | hs := peer_mem isGlobalUnicast ipNic filter hkind
        · exact ⟨e, he, by simp [hs]⟩
        · exact ⟨e, he, by simp [hs]⟩

end Run

/-- A connection that is routed between two other hosts. -/
def routedEntry : CtEntry :=
  (((∅ : CtEntry).insert "Proto" "tcp").insert "oSIP" "10.0.0.1").insert "oDIP" "10.0.0.2"

/-- The set of routed addresses is given the names of the fields. -/
theorem parseConntrack_adds_names :
    ¬ CtRight (fun _ => true) ∅ ∅ ⟨⟨∅⟩, ∅, ∅⟩ (parseConntrack (fun _ => true) ∅ ∅ ⟨⟨∅⟩, ∅, ∅⟩ [routedEntry])
      [routedEntry] := by
  intro h
  obtain ⟨e, he, hs⟩ := h.only "oSIP" (Or.inr (Or.inl ⟨by decide, by decide⟩))
  rw [List.mem_singleton] at he
  subst he
  revert hs
  decide

end Dni.Dms
