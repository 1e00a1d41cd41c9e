import Dni.GraphPrepare
import Dni.ParsedOrder

namespace Dni.Cpp

open Utils OnePass

namespace Utils

theorem stoi_error {s : Text} {e : Stop} (h : stoi s = .error e) : e = .terminated := by
  have hread : ∀ (empty fits : Prop) [Decidable empty] [Decidable fits] (value : Int),
      (if empty then .error .terminated else if fits then .ok value else .error .terminated : Except Stop Int) =
        .error e → e = .terminated := by
    intro empty fits _ _ value h
    split at h
    next => exact (Except.error.inj h).symm
    next =>
      split at h
      next => cases h
      next => exact (Except.error.inj h).symm
  simp only [stoi] at h
  split at h <;> exact hread _ _ _ h

theorem bind_error {α β : Type} {x : Except Stop α} {f : α → Except Stop β} {e : Stop}
    (h : x >>= f = .error e) : x = .error e ∨ ∃ a, x = .ok a ∧ f a = .error e := by
  cases x with
  | error e' =>
    cases h
    exact Or.inl rfl
  | ok a => exact Or.inr ⟨a, rfl, h⟩

theorem substr_error {s : Text} {pos : Int} {e : Stop} (h : substr s pos = .error e) : e = .terminated := by
  unfold substr at h
  split at h
  next =>
    cases h
    rfl
  next => cases h

/-- No parse of tags is the dereference of a null pointer. -/
theorem parseTagIndex_error {s : Text} {e : Stop} (h : ParseTagIndex s = .error e) : e = .terminated := by
  unfold ParseTagIndex at h
  dsimp only at h
  split at h
  next => cases h
  next =>
    split at h
    next => cases h
    next =>
      obtain hsub | ⟨num, _, h⟩ := bind_error h
      · exact substr_error hsub
      · obtain hstoi | ⟨_, _, h⟩ := bind_error h
        · exact stoi_error hstoi
        · cases h

theorem parseTagIndexName_error {s : Text} {e : Stop} (h : ParseTagIndexName s = .error e) :
    e ≠ .nullDeref := by
  have hterminated : Stop.terminated ≠ .nullDeref := by simp
  unfold ParseTagIndexName at h
  dsimp only at h
  split at h
  next => cases h
  next =>
    split at h
    next => cases h
    next =>
      obtain hsub | ⟨rest, _, h⟩ := bind_error h
      · exact substr_error hsub ▸ hterminated
      split at h
      next =>
        cases h
        simp
      next =>
        split at h
        next => cases h
        next =>
          split at h
          next =>
            cases h
            simp
          next =>
            obtain hstoi | ⟨index, _, h⟩ := bind_error h
            · exact stoi_error hstoi ▸ hterminated
            · obtain hsub | ⟨name, _, h⟩ := bind_error h
              · exact substr_error hsub ▸ hterminated
              · cases h

theorem collect_error {fields : List Text} {m : List (Text × TagNames)} {e : Stop}
    (h : collect fields m = .error e) : e ≠ .nullDeref := by
  induction fields generalizing m with
  | nil => cases h
  | cons field fields ih =>
    obtain hparse | ⟨_, _, hrest⟩ := bind_error h
    · exact parseTagIndexName_error hparse
    · exact ih hrest

theorem layout_error {curr : Nat} {m : List (Text × TagNames)} {e : Stop}
    (h : layout curr m = .error e) : e ≠ .nullDeref := by
  induction m generalizing curr with
  | nil => cases h
  | cons item m ih =>
    unfold layout at h
    split at h
    next =>
      cases h
      simp
    next =>
      obtain hrest | ⟨_, _, hok⟩ := bind_error h
      · exact ih hrest
      · cases hok

theorem initialize_error {fields : List Text} {e : Stop} (h : TagMap.Initialize fields = .error e) :
    e = .failed ∨ e = .terminated := by
  have hnull : e ≠ .nullDeref := by
    obtain hcollect | ⟨m, _, hlayout⟩ := bind_error h
    · exact collect_error hcollect
    · obtain hlayout | ⟨_, _, hok⟩ := bind_error hlayout
      · exact layout_error hlayout
      · cases hok
  cases e with
  | failed => exact Or.inl rfl
  | terminated => exact Or.inr rfl
  | nullDeref => exact absurd rfl hnull

/-- A parse ends in a map, in a null pointer, or in an exception. -/
theorem newTagMap_cases (fields : List Text) :
    (∃ m?, NewTagMap fields = .ok m? ∧ (∀ m, m? = some m → TagMap.Initialize fields = .ok m) ∧
      (m? = none → TagMap.Initialize fields = .error .failed)) ∨
      TagMap.Initialize fields = .error .terminated ∧ NewTagMap fields = .error .terminated := by
  unfold NewTagMap
  cases h : TagMap.Initialize fields with
  | ok m => exact Or.inl ⟨some m, rfl, fun _ hm => congrArg _ (Option.some.inj hm), nofun⟩
  | error e =>
    obtain he | he := initialize_error h
    · subst e
      exact Or.inl ⟨none, rfl, nofun, fun _ => rfl⟩
    · subst e
      exact Or.inr ⟨rfl, rfl⟩

end Utils

namespace GraphConfig.Node

/-- The tags of the node parse, and its stream infos name distinct inputs. -/
def SetUp (node : GraphConfig.Node) : Prop :=
  (∀ fields ∈ node.fields, Parses fields) ∧
    ∃ m, TagMap.Initialize node.inputStream = .ok m ∧ checkInfo m node.inputStreamInfo [] = .ok ()

/-- No parse of the node's tags throws, but some fail. -/
def NullTags (node : GraphConfig.Node) : Prop :=
  (∀ fields ∈ node.fields, TagMap.Initialize fields ≠ .error .terminated) ∧
    ∃ fields ∈ node.fields, TagMap.Initialize fields = .error .failed

end GraphConfig.Node

theorem nodeConfig_cases (name : Text) (node : GraphConfig.Node) :
    (∃ cfg, NodeConfig.Initialize name node = .ok cfg ∧ TagMap.Initialize node.inputStream = .ok cfg.Inputs ∧
        ∀ fields ∈ node.fields, Parses fields) ∨
      NodeConfig.Initialize name node = .error .nullDeref ∧ node.NullTags ∨
      NodeConfig.Initialize name node = .error .terminated ∧
        ∃ fields ∈ node.fields, TagMap.Initialize fields = .error .terminated := by
  unfold NodeConfig.Initialize GraphConfig.Node.NullTags GraphConfig.Node.fields
  obtain ⟨m₁, h₁, hsome₁, hnone₁⟩ | ⟨ht, h⟩ := newTagMap_cases node.inputStream
  case inr => exact Or.inr (Or.inr ⟨by simp [h, bind, Except.bind], _, by simp, ht⟩)
  obtain ⟨m₂, h₂, hsome₂, hnone₂⟩ | ⟨ht, h⟩ := newTagMap_cases node.outputStream
  case inr => exact Or.inr (Or.inr ⟨by simp [h₁, h, bind, Except.bind], _, by simp, ht⟩)
  obtain ⟨m₃, h₃, hsome₃, hnone₃⟩ | ⟨ht, h⟩ := newTagMap_cases node.inputSideData
  case inr => exact Or.inr (Or.inr ⟨by simp [h₁, h₂, h, bind, Except.bind], _, by simp, ht⟩)
  obtain ⟨m₄, h₄, hsome₄, hnone₄⟩ | ⟨ht, h⟩ := newTagMap_cases node.outputSideData
  case inr => exact Or.inr (Or.inr ⟨by simp [h₁, h₂, h₃, h, bind, Except.bind], _, by simp, ht⟩)
  -- no parse throws: a null pointer among the four is dereferenced
  have hthrow : ∀ fields ∈ [node.inputStream, node.outputStream, node.inputSideData, node.outputSideData],
      TagMap.Initialize fields ≠ .error .terminated := by
    have hne : ∀ {fields m?}, (∀ m, m? = some m → TagMap.Initialize fields = .ok m) →
        (m? = none → TagMap.Initialize fields = .error .failed) →
        TagMap.Initialize fields ≠ .error .terminated := by
      intro fields m? hsome hnone
      cases m? with
      | none => simp [hnone rfl]
      | some m => simp [hsome m rfl]
    simp [hne hsome₁ hnone₁, hne hsome₂ hnone₂, hne hsome₃ hnone₃, hne hsome₄ hnone₄]
  simp only [h₁, h₂, h₃, h₄, bind, Except.bind]
  cases m₁ with
  | none => exact Or.inr (Or.inl ⟨rfl, hthrow, _, by simp, hnone₁ rfl⟩)
  | some m₁ =>
    cases m₂ with
    | none => exact Or.inr (Or.inl ⟨rfl, hthrow, _, by simp, hnone₂ rfl⟩)
    | some m₂ =>
      cases m₃ with
      | none => exact Or.inr (Or.inl ⟨rfl, hthrow, _, by simp, hnone₃ rfl⟩)
      | some m₃ =>
        cases m₄ with
        | none => exact Or.inr (Or.inl ⟨rfl, hthrow, _, by simp, hnone₄ rfl⟩)
        | some m₄ =>
          refine Or.inl ⟨_, rfl, hsome₁ m₁ rfl, ?_⟩
          simp [Parses, hsome₁ m₁ rfl, hsome₂ m₂ rfl, hsome₃ m₃ rfl, hsome₄ m₄ rfl]

theorem checkInfo_error {inputs : TagMap} {infos : List Text} {used : List Int} {e : Stop}
    (h : checkInfo inputs infos used = .error e) : e ≠ .nullDeref := by
  induction infos generalizing used with
  | nil => cases h
  | cons info infos ih =>
    obtain hparse | ⟨tagIndex, _, hrest⟩ := bind_error h
    · simp [parseTagIndex_error hparse]
    · dsimp only at hrest
      split at hrest
      next =>
        cases hrest
        simp
      next =>
        split at hrest
        next =>
          cases hrest
          simp
        next => exact ih hrest

/-- A node is set up, or its null tags are dereferenced, or the parse of the graph ends here. -/
theorem nodeInfo_cases (config : GraphConfig) (node : GraphConfig.Node) (i : Nat) :
    (∃ info, NodeInfo.Initialize config node i = .ok info ∧ node.SetUp) ∨
      NodeInfo.Initialize config node i = .error .nullDeref ∧ node.NullTags ∨
      (∃ e, e ≠ .nullDeref ∧ NodeInfo.Initialize config node i = .error e) ∧ ¬ node.SetUp ∧ ¬ node.NullTags := by
  unfold NodeInfo.Initialize
  obtain ⟨cfg, hcfg, hinputs, hparses⟩ | ⟨hcfg, hnull⟩ | ⟨hcfg, fields, hfields, hthrow⟩ :=
    nodeConfig_cases (CanonicalNodeName config node i) node
  · rw [hcfg]
    cases hinfo : checkInfo cfg.Inputs node.inputStreamInfo [] with
    | ok _ =>
      refine Or.inl ⟨⟨cfg, ⟨.TASK, i⟩, 0, 0, 0, 0, []⟩, ?_, hparses, cfg.Inputs, hinputs, hinfo⟩
      simp only [bind, Except.bind, hinfo]
    | error e =>
      refine Or.inr (Or.inr ⟨⟨e, checkInfo_error hinfo, ?_⟩, ?_, ?_⟩)
      · simp only [bind, Except.bind, hinfo]
      · intro ⟨_, m, hm, hok⟩
        rw [hinputs] at hm
        cases hm
        rw [hinfo] at hok
        cases hok
      · intro ⟨_, fields, hfields, hfail⟩
        obtain ⟨m, hm⟩ := hparses fields hfields
        rw [hm] at hfail
        cases hfail
  · exact Or.inr (Or.inl ⟨by rw [hcfg]; rfl, hnull⟩)
  · refine Or.inr (Or.inr ⟨⟨.terminated, by simp, by rw [hcfg]; rfl⟩, ?_, ?_⟩)
    · intro ⟨hparses, _⟩
      obtain ⟨m, hm⟩ := hparses fields hfields
      rw [hm] at hthrow
      cases hthrow
    · intro ⟨hno, _⟩
      exact hno fields hfields hthrow

theorem GraphConfig.Node.NullTags.not_setUp {node : GraphConfig.Node} (h : node.NullTags) : ¬ node.SetUp := by
  obtain ⟨_, fields, hfields, hfail⟩ := h
  intro ⟨hparses, _⟩
  obtain ⟨m, hm⟩ := hparses fields hfields
  rw [hm] at hfail
  cases hfail

/-- The first node that is not set up has tags that give a null pointer. -/
def NullFirst (nodes : List GraphConfig.Node) : Prop :=
  ∃ before node after, nodes = before ++ node :: after ∧ (∀ n ∈ before, n.SetUp) ∧ node.NullTags

theorem nullFirst_cons {node : GraphConfig.Node} {nodes : List GraphConfig.Node} :
    NullFirst (node :: nodes) ↔ node.NullTags ∨ node.SetUp ∧ NullFirst nodes := by
  apply Iff.intro
  · intro ⟨before, n, after, hsplit, hbefore, hnull⟩
    cases before with
    | nil =>
      cases hsplit
      exact Or.inl hnull
    | cons b before =>
      cases hsplit
      exact Or.inr ⟨hbefore _ (by simp), before, n, after, rfl, fun m hm => hbefore m (by simp [hm]), hnull⟩
  · intro h
    obtain hnull | ⟨hset, before, n, after, hsplit, hbefore, hnull⟩ := h
    · exact ⟨[], node, nodes, rfl, by simp, hnull⟩
    · subst nodes
      refine ⟨node :: before, n, after, rfl, ?_, hnull⟩
      simpa [hset] using hbefore

theorem initializeNodes_cases (config : GraphConfig) (i : Nat) (nodes : List GraphConfig.Node) :
    (∃ infos, ParsedGraphConfig.InitializeNodes config i nodes = .ok infos ∧ ∀ node ∈ nodes, node.SetUp) ∨
      ParsedGraphConfig.InitializeNodes config i nodes = .error .nullDeref ∧ NullFirst nodes ∨
      (∃ e, e ≠ .nullDeref ∧ ParsedGraphConfig.InitializeNodes config i nodes = .error e) ∧
        (¬ ∀ node ∈ nodes, node.SetUp) ∧ ¬ NullFirst nodes := by
  induction nodes generalizing i with
  | nil => exact Or.inl ⟨[], rfl, by simp⟩
  | cons node nodes ih =>
    rw [nullFirst_cons, ParsedGraphConfig.InitializeNodes]
    obtain ⟨info, hinfo, hset⟩ | ⟨hinfo, hnull⟩ | ⟨⟨e, he, hinfo⟩, hset, hnull⟩ := nodeInfo_cases config node i
    · rw [hinfo]
      obtain ⟨infos, hrest, hall⟩ | ⟨hrest, hfirst⟩ | ⟨⟨e, he, hrest⟩, hall, hfirst⟩ := ih (i + 1)
      · exact Or.inl ⟨info :: infos, by simp only [bind, Except.bind, hrest], by simpa [hset] using hall⟩
      · exact Or.inr (Or.inl ⟨by simp only [bind, Except.bind, hrest], Or.inr ⟨hset, hfirst⟩⟩)
      · refine Or.inr (Or.inr ⟨⟨e, he, by simp only [bind, Except.bind, hrest]⟩, ?_, ?_⟩)
        · intro h
          exact hall fun n hn => h n (by simp [hn])
        · intro h
          obtain hnull | ⟨_, hnull⟩ := h
          · exact hnull.not_setUp hset
          · exact hfirst hnull
    · exact Or.inr (Or.inl ⟨by rw [hinfo]; rfl, Or.inl hnull⟩)
    · refine Or.inr (Or.inr ⟨⟨e, he, by rw [hinfo]; rfl⟩, ?_, ?_⟩)
      · intro h
        exact hset (h node (by simp))
      · intro h
        obtain h | ⟨h, _⟩ := h
        · exact hnull h
        · exact hset h

theorem forNodes_total {f : NodeInfo → Edges → NodeInfo × Edges} {nodes : List NodeInfo}
    (h : ∀ node ∈ nodes, node.Node.type = .TASK) (g : Edges) : ∃ r, forNodes f nodes g = .ok r := by
  induction nodes generalizing g with
  | nil => exact ⟨_, rfl⟩
  | cons node nodes ih =>
    obtain ⟨r, hr⟩ := ih (fun n hn => h n (by simp [hn])) (f node g).2
    refine ⟨((f node g).1 :: r.1, r.2), ?_⟩
    simp only [forNodes, h node (by simp), ne_eq, not_true_eq_false, if_false, hr, bind, Except.bind]

theorem parses_iff (fields : List Text) : Parses fields ↔ ∃ m, NewTagMap fields = .ok (some m) := by
  apply Iff.intro
  · intro ⟨m, hm⟩
    exact ⟨m, by rw [NewTagMap, hm]⟩
  · intro ⟨m, hm⟩
    exact ⟨m, initialize_of_newTagMap hm⟩

theorem not_parses {fields : List Text} (h : ¬ Parses fields) :
    NewTagMap fields = .ok none ∨ NewTagMap fields = .error .terminated := by
  obtain ⟨m?, hm, hsome, _⟩ | ⟨_, hm⟩ := newTagMap_cases fields
  · cases m? with
    | none => exact Or.inl hm
    | some m => exact absurd ⟨m, hsome m rfl⟩ h
  · exact Or.inr hm

theorem parses_nil : Parses [] := ⟨_, rfl⟩

namespace ParsedGraphConfig

theorem initializeSideData_cases (config : GraphConfig) {nodes : List NodeInfo}
    (h : ∀ node ∈ nodes, node.Node.type = .TASK) :
    (∃ r, InitializeSideData config nodes = .ok r ∧ Parses config.inputSideData) ∨
      (∃ e, e ≠ .nullDeref ∧ InitializeSideData config nodes = .error e) ∧ ¬ Parses config.inputSideData := by
  unfold InitializeSideData
  split
  next hnil =>
    obtain ⟨r, hr⟩ := forNodes_total (f := initializeNodeSideData) h .empty
    exact Or.inl ⟨r, hr, hnil ▸ parses_nil⟩
  next =>
    by_cases hp : Parses config.inputSideData
    · obtain ⟨m, hm⟩ := (parses_iff _).mp hp
      obtain ⟨r, hr⟩ := forNodes_total (f := initializeNodeSideData) h
        (m.names.foldl (fun g name => g.addOutput .unset name) .empty)
      exact Or.inl ⟨r, by simpa only [hm, bind, Except.bind] using hr, hp⟩
    · obtain hm | hm := not_parses hp
      · exact Or.inr ⟨⟨.failed, by simp, by simp only [hm, bind, Except.bind]⟩, hp⟩
      · exact Or.inr ⟨⟨.terminated, by simp, by simp only [hm, bind, Except.bind]⟩, hp⟩

theorem initializeStreams_cases (config : GraphConfig) {nodes : List NodeInfo}
    (h : ∀ node ∈ nodes, node.Node.type = .TASK) :
    (∃ r, InitializeStreams config nodes = .ok r ∧ Parses config.inputStream ∧ Parses config.outputStream) ∨
      (∃ e, e ≠ .nullDeref ∧ InitializeStreams config nodes = .error e) ∧
        ¬ (Parses config.inputStream ∧ Parses config.outputStream) := by
  unfold InitializeStreams
  by_cases hp : Parses config.inputStream
  · obtain ⟨m, hm⟩ := (parses_iff _).mp hp
    obtain ⟨r, hr⟩ := forNodes_total (f := initializeNodeStreams) h (m.names.zipIdx.foldl
      (fun g e => g.addOutput ⟨.GRAPH_INPUT_STREAM, e.2 + config.node.length⟩ e.1) .empty)
    simp only [hm, bind, Except.bind, hr]
    by_cases hq : Parses config.outputStream
    · obtain ⟨m', hm'⟩ := (parses_iff _).mp hq
      exact Or.inl ⟨r, by simp only [hm'], hp, hq⟩
    · obtain hm' | hm' := not_parses hq
      · exact Or.inr ⟨⟨.failed, by simp, by simp only [hm']⟩, fun hboth => hq hboth.2⟩
      · exact Or.inr ⟨⟨.terminated, by simp, by simp only [hm']⟩, fun hboth => hq hboth.2⟩
  · obtain hm | hm := not_parses hp
    · exact Or.inr ⟨⟨.failed, by simp, by simp only [hm, bind, Except.bind]⟩, fun hboth => hp hboth.1⟩
    · exact Or.inr ⟨⟨.terminated, by simp, by simp only [hm, bind, Except.bind]⟩, fun hboth => hp hboth.1⟩

end ParsedGraphConfig

end Dni.Cpp
