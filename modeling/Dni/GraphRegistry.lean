import Dni.GraphManager

namespace Dni

open GoMap Runs

/-- Everything that a step of the service can do. -/
inductive GraphManager.Step (s : GraphManager) : ManagerEvent → GraphManager → Prop
  | callRun (c : Nat) (name : String) (h : s.calls c = .none) :
    Step s (.runGraph c name) (s.goto c (.runGraph name .called))
  | callDestroy (c : Nat) (name : String) (h : s.calls c = .none) :
    Step s (.destroyGraph c name) (s.goto c (.destroyGraph name .called))
  | taken (c : Nat) (name err : String) (start : Except String Unit) (h : s.calls c = .runGraph name .called)
    (hm : s.mutex = none) (hn : name ∈ s.graphMap) :
    Step s (.next c start) { s.goto c (.runGraph name (.returned (.error err))) with mutex := some c }
  | check (c : Nat) (name : String) (start : Except String Unit) (h : s.calls c = .runGraph name .called)
    (hm : s.mutex = none) (hn : name ∉ s.graphMap) :
    Step s (.next c start) (s.goto c (.runGraph name .checked))
  | fail (c : Nat) (name err : String) (h : s.calls c = .runGraph name .checked) :
    Step s (.next c (.error err)) (s.goto c (.runGraph name (.returned (.error err))))
  | start (c : Nat) (name : String) (h : s.calls c = .runGraph name .checked) :
    Step s (.next c (.ok ()))
      { s.goto c (.runGraph name .started) with started := ⟨c, name⟩ :: s.started }
  | insert (c : Nat) (name : String) (start : Except String Unit) (h : s.calls c = .runGraph name .started)
    (hm : s.mutex = none) :
    Step s (.next c start) { s.goto c (.runGraph name (.returned (.ok name))) with
      graphMap := s.graphMap.insert name ⟨c, name⟩ }
  | missing (c : Nat) (name err : String) (start : Except String Unit)
    (h : s.calls c = .destroyGraph name .called) (hm : s.mutex = none) (hn : s.graphMap.lookup name = none) :
    Step s (.next c start) (s.goto c (.destroyGraph name (.returned (.error err))))
  | find (c : Nat) (name : String) (g : ManagedGraph) (start : Except String Unit)
    (h : s.calls c = .destroyGraph name .called) (hm : s.mutex = none) (hn : s.graphMap.lookup name = some g) :
    Step s (.next c start) { s.goto c (.destroyGraph name (.found g)) with mutex := some c }
  | destroy (c : Nat) (name : String) (g : ManagedGraph) (start : Except String Unit)
    (h : s.calls c = .destroyGraph name (.found g)) :
    Step s (.next c start) { s.goto c (.destroyGraph name (.destroyed g)) with
      destroyed := g :: s.destroyed }
  | delete (c : Nat) (name : String) (g : ManagedGraph) (start : Except String Unit)
    (h : s.calls c = .destroyGraph name (.destroyed g)) :
    Step s (.next c start) { s.goto c (.destroyGraph name (.returned (.ok ()))) with
      graphMap := s.graphMap.erase name
      mutex := none }

theorem GraphManager.step_cases {s t : GraphManager} {e : ManagerEvent} (h : s.step e = some t) :
    s.Step e t := by
  cases e with
  | runGraph c name =>
    simp only [step] at h
    split at h
    next hc =>
      cases h
      exact .callRun c name hc
    next => cases h
  | destroyGraph c name =>
    simp only [step] at h
    split at h
    next hc =>
      cases h
      exact .callDestroy c name hc
    next => cases h
  | next c start =>
    simp only [step] at h
    split at h
    next => cases h
    next name pos hc =>
      cases pos with
      | called =>
        simp only [runGraph] at h
        split at h
        next hm =>
          split at h
          next hn =>
            cases h
            exact .taken c name _ start hc hm hn
          next hn =>
            cases h
            exact .check c name start hc hm hn
        next => cases h
      | checked =>
        cases start with
        | error err =>
          cases h
          exact .fail c name err hc
        | ok u =>
          cases h
          exact .start c name hc
      | started =>
        simp only [runGraph] at h
        split at h
        next hm =>
          cases h
          exact .insert c name start hc hm
        next => cases h
      | returned result => cases h
    next name pos hc =>
      cases pos with
      | called =>
        simp only [destroyGraph] at h
        split at h
        next hm =>
          split at h
          next hn =>
            cases h
            exact .missing c name _ start hc hm hn
          next g hn =>
            cases h
            exact .find c name g start hc hm hn
        next => cases h
      | found g =>
        cases h
        exact .destroy c name g start hc
      | destroyed g =>
        cases h
        exact .delete c name g start hc
      | returned result => cases h

section Positions

namespace GraphManager

variable {s : GraphManager} {c c' : Nat} {call call' : ManagerCall}

theorem calls_goto : (s.goto c call).calls c' = if c' = c then call else s.calls c' :=
  Function.update_apply ..

/-- A call moves: the positions that it neither leaves nor takes stay as they are. -/
theorem goto_keep (hold : s.calls c ≠ call') (hnew : call ≠ call') :
    (s.goto c call).calls c' = call' ↔ s.calls c' = call' := by
  rw [calls_goto]
  split
  next hc =>
    subst hc
    exact iff_of_false hnew hold
  next => exact Iff.rfl

theorem goto_take (hold : s.calls c ≠ call') :
    (s.goto c call).calls c' = call' ↔ c' = c ∧ call = call' ∨ s.calls c' = call' := by
  rw [calls_goto]
  split
  next hc =>
    subst hc
    simp [hold]
  next hc => simp [hc]

theorem goto_leave (hnew : call ≠ call') :
    (s.goto c call).calls c' = call' ↔ c' ≠ c ∧ s.calls c' = call' := by
  rw [calls_goto]
  split
  next hc =>
    subst hc
    simp [hnew]
  next hc => simp [hc]

/-- A DestroyGraph that moves on has been called. -/
theorem goto_destroy {name n : String} {old new pos : DestroyGraphAt} (hc : s.calls c = .destroyGraph name old)
    (hnew : new ≠ .called) (hd : s.calls c' = .destroyGraph n pos) (hpos : pos ≠ .called) :
    ∃ pos', (s.goto c (.destroyGraph name new)).calls c' = .destroyGraph n pos' ∧ pos' ≠ .called := by
  rw [calls_goto]
  by_cases hcc : c' = c
  · subst hcc
    rw [hc] at hd
    cases hd
    exact ⟨new, if_pos rfl, hnew⟩
  · exact ⟨pos, (if_neg hcc).trans hd, hpos⟩

end GraphManager

end Positions

/-- What holds while every `RunGraph` is alone on its name. -/
structure GraphManager.Inv (s : GraphManager) : Prop where
  locked : ∀ c, s.mutex = some c →
    ∃ name g, s.calls c = .destroyGraph name (.found g) ∨ s.calls c = .destroyGraph name (.destroyed g)
  found : ∀ c name g, s.calls c = .destroyGraph name (.found g) →
    s.mutex = some c ∧ s.graphMap.lookup name = some g ∧ g ∉ s.destroyed
  destroyed : ∀ c name g, s.calls c = .destroyGraph name (.destroyed g) →
    s.mutex = some c ∧ s.graphMap.lookup name = some g ∧ g ∈ s.destroyed
  entry : ∀ name g, s.graphMap.lookup name = some g → g ∈ s.started ∧ g.name = name ∧
    ∃ r, s.calls g.call = .runGraph name (.returned (.ok r))
  leaving : ∀ name g, s.graphMap.lookup name = some g → g ∈ s.destroyed →
    ∃ c, s.calls c = .destroyGraph name (.destroyed g)
  fresh : ∀ c name, s.calls c = .runGraph name .started →
    ⟨c, name⟩ ∈ s.started ∧ ⟨c, name⟩ ∉ s.destroyed
  done : ∀ c name r, s.calls c = .runGraph name (.returned (.ok r)) → ⟨c, name⟩ ∈ s.started
  call : ∀ g ∈ s.started, s.calls g.call = .runGraph g.name .started ∨
    (∃ r, s.calls g.call = .runGraph g.name (.returned (.ok r))) ∧
      (g ∈ s.destroyed ∨ s.graphMap.lookup g.name = some g)
  clear : ∀ c name, s.calls c = .runGraph name .started → ∀ g, s.graphMap.lookup name = some g →
    g ∈ s.destroyed
  alone : ∀ c c' name, s.calls c = .runGraph name .started → s.calls c' = .runGraph name .started → c = c'
  gone : ∀ g ∈ s.destroyed, g ∈ s.started ∧
    ∃ d pos, s.calls d = .destroyGraph g.name pos ∧ pos ≠ .called

theorem GraphManager.init_inv : GraphManager.init.Inv := by
  constructor <;> simp [init]

/-- The positions at which a call holds nothing. -/
def ManagerCall.Idle : ManagerCall → Prop
  | .destroyGraph _ (.found _) | .destroyGraph _ (.destroyed _) => False
  | .runGraph _ .started | .runGraph _ (.returned (.ok _)) => False
  | _ => True

namespace GraphManager.Inv

variable {s t : GraphManager}

/-- A call that holds nothing and moves on, still holding nothing. -/
theorem idle {c : Nat} {call : ManagerCall} (h : s.Inv) (hold : (s.calls c).Idle) (hnew : call.Idle)
    (hdone : ∀ name pos, s.calls c = .destroyGraph name pos → pos = .called) :
    (s.goto c call).Inv := by
  have hkeep : ∀ {c' call'}, ¬ call'.Idle → ((s.goto c call).calls c' = call' ↔ s.calls c' = call') := by
    intro c' call' hbusy
    exact goto_keep (fun he => hbusy (he ▸ hold)) (fun he => hbusy (he ▸ hnew))
  have hfound : ∀ {c' name g}, _ := fun {c' name g} => @hkeep c' (.destroyGraph name (.found g)) id
  have hgone : ∀ {c' name g}, _ := fun {c' name g} => @hkeep c' (.destroyGraph name (.destroyed g)) id
  have hstarted : ∀ {c' name}, _ := fun {c' name} => @hkeep c' (.runGraph name .started) id
  have hok : ∀ {c' name r}, _ := fun {c' name r} => @hkeep c' (.runGraph name (.returned (.ok r))) id
  refine ⟨fun c' hc' => ?_, fun c' name g hc' => h.found c' name g (hfound.mp hc'),
    fun c' name g hc' => h.destroyed c' name g (hgone.mp hc'), fun name g hg => ?_, fun name g hg hd => ?_,
    fun c' name hc' => h.fresh c' name (hstarted.mp hc'), fun c' name r hc' => h.done c' name r (hok.mp hc'),
    fun g hg => ?_, fun c' name hc' => h.clear c' name (hstarted.mp hc'),
    fun c' c'' name hc' hc'' => h.alone c' c'' name (hstarted.mp hc') (hstarted.mp hc''), fun g hg => ?_⟩
  · obtain ⟨name, g, hl⟩ := h.locked c' hc'
    exact ⟨name, g, hl.imp hfound.mpr hgone.mpr⟩
  · obtain ⟨hs, hn, r, hr⟩ := h.entry name g hg
    exact ⟨hs, hn, r, hok.mpr hr⟩
  · obtain ⟨d, hd⟩ := h.leaving name g hg hd
    exact ⟨d, hgone.mpr hd⟩
  · exact (h.call g hg).imp hstarted.mpr (And.imp_left fun ⟨r, hr⟩ => ⟨r, hok.mpr hr⟩)
  · obtain ⟨hs, d, pos, hpos, hne⟩ := h.gone g hg
    refine ⟨hs, d, pos, ?_, hne⟩
    rw [calls_goto, if_neg, hpos]
    intro hd
    subst hd
    exact hne (hdone _ _ hpos)

theorem start {c : Nat} {name : String} (h : s.Inv) (hc : s.calls c = .runGraph name .checked)
    (hmap : ∀ g, s.graphMap.lookup name = some g → g ∈ s.destroyed)
    (hcalls : ∀ c', s.calls c' ≠ .runGraph name .started) :
    Inv { s.goto c (.runGraph name .started) with started := ⟨c, name⟩ :: s.started } := by
  have hkeep : ∀ {c' call'}, .runGraph name .checked ≠ call' → .runGraph name .started ≠ call' →
      ((s.goto c (.runGraph name .started)).calls c' = call' ↔ s.calls c' = call') :=
    fun hold hnew => goto_keep (hc ▸ hold) hnew
  have hstarted : ∀ {c' name'}, (s.goto c (.runGraph name .started)).calls c' = .runGraph name' .started ↔
      c' = c ∧ name = name' ∨ s.calls c' = .runGraph name' .started := by
    intro c' name'
    rw [goto_take (by simp [hc])]
    simp
  refine ⟨fun c' hc' => ?_, fun c' n g hc' => h.found c' n g ((hkeep (by simp) (by simp)).mp hc'),
    fun c' n g hc' => h.destroyed c' n g ((hkeep (by simp) (by simp)).mp hc'), fun n g hg => ?_,
    fun n g hg hd => ?_, fun c' n hc' => ?_, fun c' n r hc' => ?_, fun g hg => ?_, fun c' n hc' g hg => ?_,
    fun c' c'' n hc' hc'' => ?_, fun g hg => ?_⟩
  · obtain ⟨n, g, hl⟩ := h.locked c' hc'
    exact ⟨n, g, hl.imp (hkeep (by simp) (by simp)).mpr (hkeep (by simp) (by simp)).mpr⟩
  · obtain ⟨hs, hn, r, hr⟩ := h.entry n g hg
    exact ⟨List.mem_cons_of_mem _ hs, hn, r, (hkeep (by simp) (by simp)).mpr hr⟩
  · obtain ⟨d, hd⟩ := h.leaving n g hg hd
    exact ⟨d, (hkeep (by simp) (by simp)).mpr hd⟩
  · obtain ⟨hcc, hn⟩ | hold := hstarted.mp hc'
    · subst hcc hn
      refine ⟨List.mem_cons_self, fun hd => ?_⟩
      obtain hs | ⟨⟨r, hr⟩, -⟩ := h.call _ (h.gone _ hd).1
      · cases hc.symm.trans hs
      · cases hc.symm.trans hr
    · obtain ⟨hs, hd⟩ := h.fresh c' n hold
      exact ⟨List.mem_cons_of_mem _ hs, hd⟩
  · exact List.mem_cons_of_mem _ (h.done c' n r ((hkeep (by simp) (by simp)).mp hc'))
  · obtain hnew | hold := List.mem_cons.mp hg
    · subst hnew
      exact Or.inl (hstarted.mpr (Or.inl ⟨rfl, rfl⟩))
    · obtain hs | ⟨⟨r, hr⟩, hl⟩ := h.call g hold
      · exact Or.inl (hstarted.mpr (Or.inr hs))
      · exact Or.inr ⟨⟨r, (hkeep (by simp) (by simp)).mpr hr⟩, hl⟩
  · obtain ⟨-, hn⟩ | hold := hstarted.mp hc'
    · subst hn
      exact hmap g hg
    · exact h.clear c' n hold g hg
  · obtain ⟨hcc, hn⟩ | hold := hstarted.mp hc'
    · subst hn
      obtain ⟨hcc', -⟩ | hold' := hstarted.mp hc''
      · exact hcc.trans hcc'.symm
      · exact absurd hold' (hcalls c'')
    · obtain ⟨-, hn⟩ | hold' := hstarted.mp hc''
      · subst hn
        exact absurd hold (hcalls c')
      · exact h.alone c' c'' n hold hold'
  · obtain ⟨hs, d, pos, hpos, hne⟩ := h.gone g hg
    exact ⟨List.mem_cons_of_mem _ hs, d, pos, (hkeep (by simp) (by simp)).mpr hpos, hne⟩

theorem insert {c : Nat} {name : String} (h : s.Inv) (hc : s.calls c = .runGraph name .started)
    (hm : s.mutex = none) :
    Inv { s.goto c (.runGraph name (.returned (.ok name))) with
      graphMap := s.graphMap.insert name ⟨c, name⟩ } := by
  obtain ⟨hs, hd⟩ := h.fresh c name hc
  -- a graph registered under the name would be one that the holder of the mutex is about to delete
  have hnew : s.graphMap.lookup name = none := by
    rw [Option.eq_none_iff_forall_ne_some]
    intro g hg
    obtain ⟨d, hd⟩ := h.leaving name g hg (h.clear c name hc g hg)
    obtain ⟨hm', -, -⟩ := h.destroyed d name g hd
    cases hm.symm.trans hm'
  have hkeep : ∀ {c' call'}, .runGraph name .started ≠ call' → .runGraph name (.returned (.ok name)) ≠ call' →
      ((s.goto c (.runGraph name (.returned (.ok name)))).calls c' = call' ↔ s.calls c' = call') :=
    fun hold hnew => goto_keep (hc ▸ hold) hnew
  have hstarted : ∀ {c' n}, (s.goto c (.runGraph name (.returned (.ok name)))).calls c' = .runGraph n .started ↔
      c' ≠ c ∧ s.calls c' = .runGraph n .started := goto_leave (by simp)
  have hok : ∀ {c' n r}, (s.goto c (.runGraph name (.returned (.ok name)))).calls c' =
      .runGraph n (.returned (.ok r)) ↔
        c' = c ∧ (name = n ∧ name = r) ∨ s.calls c' = .runGraph n (.returned (.ok r)) := by
    intro c' n r
    rw [goto_take (by simp [hc])]
    simp
  have hlookup : ∀ n g, (s.graphMap.insert name ⟨c, name⟩).lookup n = some g ↔
      n = name ∧ ⟨c, name⟩ = g ∨ s.graphMap.lookup n = some g := by
    intro n g
    rw [lookup_insert_if]
    split
    next hn =>
      subst hn
      simp [hnew]
    next hn => simp [hn]
  refine ⟨fun c' hc' => ?_, fun c' n g hc' => ?_, fun c' n g hc' => ?_, fun n g hg => ?_,
    fun n g hg hd' => ?_, fun c' n hc' => h.fresh c' n (hstarted.mp hc').2, fun c' n r hc' => ?_,
    fun g hg => ?_, fun c' n hc' g hg => ?_,
    fun c' c'' n hc' hc'' => h.alone c' c'' n (hstarted.mp hc').2 (hstarted.mp hc'').2, fun g hg => ?_⟩
  · cases hm.symm.trans hc'
  · cases hm.symm.trans (h.found c' n g ((hkeep (by simp) (by simp)).mp hc')).1
  · cases hm.symm.trans (h.destroyed c' n g ((hkeep (by simp) (by simp)).mp hc')).1
  · obtain ⟨hn, hg⟩ | hold := (hlookup n g).mp hg
    · subst hn hg
      exact ⟨hs, rfl, n, hok.mpr (Or.inl ⟨rfl, rfl, rfl⟩)⟩
    · obtain ⟨hs', hn, r, hr⟩ := h.entry n g hold
      exact ⟨hs', hn, r, hok.mpr (Or.inr hr)⟩
  · obtain ⟨hn, hg⟩ | hold := (hlookup n g).mp hg
    · subst hg
      exact absurd hd' hd
    · obtain ⟨d, hd⟩ := h.leaving n g hold hd'
      exact ⟨d, (hkeep (by simp) (by simp)).mpr hd⟩
  · obtain ⟨hcc, hn, -⟩ | hold := hok.mp hc'
    · subst hcc hn
      exact hs
    · exact h.done c' n r hold
  · obtain hstart | ⟨⟨r, hr⟩, hl⟩ := h.call g hg
    · by_cases hcc : g.call = c
      · rw [hcc, hc] at hstart
        have hname : name = g.name := by simpa using hstart
        have hgc : ⟨c, name⟩ = g := by
          rw [← hcc, hname]
        refine Or.inr ⟨⟨name, hok.mpr (Or.inl ⟨hcc, hname, rfl⟩)⟩, Or.inr ?_⟩
        exact (hlookup _ _).mpr (Or.inl ⟨hname.symm, hgc⟩)
      · exact Or.inl (hstarted.mpr ⟨hcc, hstart⟩)
    · exact Or.inr ⟨⟨r, hok.mpr (Or.inr hr)⟩, hl.imp_right fun hl => (hlookup _ _).mpr (Or.inr hl)⟩
  · obtain ⟨hn, -⟩ | hold := (hlookup n g).mp hg
    · subst hn
      obtain ⟨hcc, hst⟩ := hstarted.mp hc'
      exact absurd (h.alone c' c _ hst hc) hcc
    · exact h.clear c' n (hstarted.mp hc').2 g hold
  · obtain ⟨hs', d, pos, hpos, hne⟩ := h.gone g hg
    exact ⟨hs', d, pos, (hkeep (by simp) (by simp)).mpr hpos, hne⟩

theorem find {c : Nat} {name : String} {g : ManagedGraph} (h : s.Inv)
    (hc : s.calls c = .destroyGraph name .called) (hm : s.mutex = none)
    (hg : s.graphMap.lookup name = some g) :
    Inv { s.goto c (.destroyGraph name (.found g)) with mutex := some c } := by
  have hkeep : ∀ {c' call'}, .destroyGraph name .called ≠ call' → .destroyGraph name (.found g) ≠ call' →
      ((s.goto c (.destroyGraph name (.found g))).calls c' = call' ↔ s.calls c' = call') :=
    fun hold hnew => goto_keep (hc ▸ hold) hnew
  have hfound : ∀ {c' n g'}, (s.goto c (.destroyGraph name (.found g))).calls c' =
      .destroyGraph n (.found g') ↔ c' = c ∧ (name = n ∧ g = g') ∨ s.calls c' = .destroyGraph n (.found g') := by
    intro c' n g'
    rw [goto_take (by simp [hc])]
    simp
  have hno : ∀ {c' n g'}, s.calls c' ≠ .destroyGraph n (.destroyed g') := fun {c' n g'} hd =>
    nomatch hm.symm.trans (h.destroyed c' n g' hd).1
  refine ⟨fun c' hc' => ?_, fun c' n g' hc' => ?_, fun c' n g' hc' => ?_, fun n g' hg' => ?_,
    fun n g' hg' hd => ?_, fun c' n hc' => h.fresh c' n ((hkeep (by simp) (by simp)).mp hc'),
    fun c' n r hc' => h.done c' n r ((hkeep (by simp) (by simp)).mp hc'), fun g' hg' => ?_,
    fun c' n hc' => h.clear c' n ((hkeep (by simp) (by simp)).mp hc'),
    fun c' c'' n hc' hc'' => h.alone c' c'' n ((hkeep (by simp) (by simp)).mp hc')
      ((hkeep (by simp) (by simp)).mp hc''), fun g' hg' => ?_⟩
  · cases hc'
    exact ⟨name, g, Or.inl (hfound.mpr (Or.inl ⟨rfl, rfl, rfl⟩))⟩
  · obtain ⟨hcc, hn, hgg⟩ | hold := hfound.mp hc'
    · subst hcc hn hgg
      refine ⟨rfl, hg, fun hd => ?_⟩
      obtain ⟨d, hd⟩ := h.leaving _ _ hg hd
      exact hno hd
    · cases hm.symm.trans (h.found c' n g' hold).1
  · exact absurd ((hkeep (by simp) (by simp)).mp hc') hno
  · obtain ⟨hs, hn, r, hr⟩ := h.entry n g' hg'
    exact ⟨hs, hn, r, (hkeep (by simp) (by simp)).mpr hr⟩
  · obtain ⟨d, hd⟩ := h.leaving n g' hg' hd
    exact absurd hd hno
  · exact (h.call g' hg').imp (hkeep (by simp) (by simp)).mpr
      (And.imp_left fun ⟨r, hr⟩ => ⟨r, (hkeep (by simp) (by simp)).mpr hr⟩)
  · obtain ⟨hs, d, pos, hpos, hne⟩ := h.gone g' hg'
    exact ⟨hs, d, goto_destroy hc (by simp) hpos hne⟩

theorem destroy {c : Nat} {name : String} {g : ManagedGraph} (h : s.Inv)
    (hc : s.calls c = .destroyGraph name (.found g)) :
    Inv { s.goto c (.destroyGraph name (.destroyed g)) with destroyed := g :: s.destroyed } := by
  obtain ⟨hm, hg, hd⟩ := h.found c name g hc
  obtain ⟨hs, hname, r, hr⟩ := h.entry name g hg
  have hkeep : ∀ {c' call'}, .destroyGraph name (.found g) ≠ call' →
      .destroyGraph name (.destroyed g) ≠ call' →
      ((s.goto c (.destroyGraph name (.destroyed g))).calls c' = call' ↔ s.calls c' = call') :=
    fun hold hnew => goto_keep (hc ▸ hold) hnew
  have hgone : ∀ {c' n g'}, (s.goto c (.destroyGraph name (.destroyed g))).calls c' =
      .destroyGraph n (.destroyed g') ↔
        c' = c ∧ (name = n ∧ g = g') ∨ s.calls c' = .destroyGraph n (.destroyed g') := by
    intro c' n g'
    rw [goto_take (by simp [hc])]
    simp
  refine ⟨fun c' hc' => ?_, fun c' n g' hc' => ?_, fun c' n g' hc' => ?_, fun n g' hg' => ?_,
    fun n g' hg' hd' => ?_, fun c' n hc' => ?_,
    fun c' n r hc' => h.done c' n r ((hkeep (by simp) (by simp)).mp hc'), fun g' hg' => ?_,
    fun c' n hc' g' hg' => List.mem_cons_of_mem _ (h.clear c' n ((hkeep (by simp) (by simp)).mp hc') g' hg'),
    fun c' c'' n hc' hc'' => h.alone c' c'' n ((hkeep (by simp) (by simp)).mp hc')
      ((hkeep (by simp) (by simp)).mp hc''), fun g' hg' => ?_⟩
  · cases hm.symm.trans hc'
    exact ⟨name, g, Or.inr (hgone.mpr (Or.inl ⟨rfl, rfl, rfl⟩))⟩
  · obtain ⟨hcc, hold⟩ := (goto_leave (by simp)).mp hc'
    cases hm.symm.trans (h.found c' n g' hold).1
    exact absurd rfl hcc
  · obtain ⟨hcc, hn, hgg⟩ | hold := hgone.mp hc'
    · subst hcc hn hgg
      exact ⟨hm, hg, List.mem_cons_self⟩
    · obtain ⟨hm', hg', hd'⟩ := h.destroyed c' n g' hold
      exact ⟨hm', hg', List.mem_cons_of_mem _ hd'⟩
  · obtain ⟨hs', hn, r', hr'⟩ := h.entry n g' hg'
    exact ⟨hs', hn, r', (hkeep (by simp) (by simp)).mpr hr'⟩
  · obtain hgg | hold := List.mem_cons.mp hd'
    · subst hgg
      obtain ⟨-, hn, -⟩ := h.entry n _ hg'
      exact ⟨c, hgone.mpr (Or.inl ⟨rfl, hname.symm.trans hn, rfl⟩)⟩
    · obtain ⟨d, hd⟩ := h.leaving n g' hg' hold
      exact ⟨d, hgone.mpr (Or.inr hd)⟩
  · have hold := (hkeep (by simp) (by simp)).mp hc'
    obtain ⟨hs', hd'⟩ := h.fresh c' n hold
    refine ⟨hs', fun hmem => ?_⟩
    obtain hgg | hmem := List.mem_cons.mp hmem
    · subst hgg
      cases hold.symm.trans hr
    · exact hd' hmem
  · exact (h.call g' hg').imp (hkeep (by simp) (by simp)).mpr
      (And.imp (fun ⟨r, hr⟩ => ⟨r, (hkeep (by simp) (by simp)).mpr hr⟩)
        (Or.imp_left (List.mem_cons_of_mem _)))
  · obtain hgg | hold := List.mem_cons.mp hg'
    · subst hgg
      exact ⟨hs, c, _, by rw [calls_goto, if_pos rfl, hname], by simp⟩
    · obtain ⟨hs', d, pos, hpos, hne⟩ := h.gone g' hold
      exact ⟨hs', d, goto_destroy hc (by simp) hpos hne⟩

theorem delete {c : Nat} {name : String} {g : ManagedGraph} (h : s.Inv)
    (hc : s.calls c = .destroyGraph name (.destroyed g)) :
    Inv { s.goto c (.destroyGraph name (.returned (.ok ()))) with
      graphMap := s.graphMap.erase name
      mutex := none } := by
  obtain ⟨hm, hg, hd⟩ := h.destroyed c name g hc
  have hkeep : ∀ {c' call'}, .destroyGraph name (.destroyed g) ≠ call' →
      .destroyGraph name (.returned (.ok ())) ≠ call' →
      ((s.goto c (.destroyGraph name (.returned (.ok ())))).calls c' = call' ↔ s.calls c' = call') :=
    fun hold hnew => goto_keep (hc ▸ hold) hnew
  have hlookup : ∀ n g', (s.graphMap.erase name).lookup n = some g' ↔
      n ≠ name ∧ s.graphMap.lookup n = some g' := by
    intro n g'
    rw [lookup_erase_if]
    split <;> simp [*]
  have hother : ∀ {c'}, s.mutex = some c' → c' = c := fun hm' => Option.some.inj (hm'.symm.trans hm)
  refine ⟨fun c' hc' => (nomatch hc'), fun c' n g' hc' => ?_, fun c' n g' hc' => ?_, fun n g' hg' => ?_,
    fun n g' hg' hd' => ?_, fun c' n hc' => h.fresh c' n ((hkeep (by simp) (by simp)).mp hc'),
    fun c' n r hc' => h.done c' n r ((hkeep (by simp) (by simp)).mp hc'), fun g' hg' => ?_,
    fun c' n hc' g' hg' => h.clear c' n ((hkeep (by simp) (by simp)).mp hc') g' ((hlookup n g').mp hg').2,
    fun c' c'' n hc' hc'' => h.alone c' c'' n ((hkeep (by simp) (by simp)).mp hc')
      ((hkeep (by simp) (by simp)).mp hc''), fun g' hg' => ?_⟩
  · have hold := (hkeep (by simp) (by simp)).mp hc'
    have hcc := hother (h.found c' n g' hold).1
    subst hcc
    cases hc.symm.trans hold
  · obtain ⟨hcc, hold⟩ := (goto_leave (by simp)).mp hc'
    exact absurd (hother (h.destroyed c' n g' hold).1) hcc
  · obtain ⟨hs', hn, r', hr'⟩ := h.entry n g' ((hlookup n g').mp hg').2
    exact ⟨hs', hn, r', (hkeep (by simp) (by simp)).mpr hr'⟩
  · obtain ⟨hne, hold⟩ := (hlookup n g').mp hg'
    obtain ⟨d, hdd⟩ := h.leaving n g' hold hd'
    have hcc := hother (h.destroyed d n g' hdd).1
    subst hcc
    cases hc.symm.trans hdd
    exact absurd rfl hne
  · obtain hst | ⟨⟨r, hr⟩, hl⟩ := h.call g' hg'
    · exact Or.inl ((hkeep (by simp) (by simp)).mpr hst)
    · refine Or.inr ⟨⟨r, (hkeep (by simp) (by simp)).mpr hr⟩, ?_⟩
      obtain hd' | hl := hl
      · exact Or.inl hd'
      · by_cases hn : g'.name = name
        · rw [hn, hg] at hl
          cases hl
          exact Or.inl hd
        · exact Or.inr ((hlookup _ _).mpr ⟨hn, hl⟩)
  · obtain ⟨hs', d, pos, hpos, hne⟩ := h.gone g' hg'
    exact ⟨hs', d, goto_destroy hc (by simp) hpos hne⟩

/-- A step that meets the condition keeps the invariant. -/
theorem step {e : ManagerEvent} (h : s.Inv) (hs : s.Step e t) (ha : s.Alone e) : t.Inv := by
  cases hs with
  | callRun c name hc => exact h.idle (hc ▸ trivial) trivial (by simp [hc])
  | callDestroy c name hc => exact h.idle (hc ▸ trivial) trivial (by simp [hc])
  | taken c name err start hc hm hn => exact absurd hn (ha.1 name hc)
  | check c name start hc hm hn => exact h.idle (hc ▸ trivial) trivial (by simp [hc])
  | fail c name err hc => exact h.idle (hc ▸ trivial) trivial (by simp [hc])
  | start c name hc =>
    obtain ⟨hmap, hcalls⟩ := ha.2 name hc rfl
    exact h.start hc hmap hcalls
  | insert c name start hc hm => exact h.insert hc hm
  | missing c name err start hc hm hn =>
    refine h.idle (hc ▸ trivial) trivial fun name' pos hpos => ?_
    rw [hc] at hpos
    cases hpos
    rfl
  | find c name g start hc hm hg => exact h.find hc hm hg
  | destroy c name g start hc => exact h.destroy hc
  | delete c name g start hc => exact h.delete hc

theorem good (h : s.Inv) : s.Good := by
  have hlive : ∀ g, s.Running g → s.graphMap.lookup g.name = some g ∨ s.calls g.call = .runGraph g.name .started := by
    intro g hg
    obtain hst | ⟨-, hd | hl⟩ := h.call g hg.1
    · exact Or.inr hst
    · exact absurd hd hg.2
    · exact Or.inl hl
  refine ⟨fun c hc hr => ?_, fun g g' hg hg' hn => ?_, fun c name r hc => ?_, fun g hg hr => ?_⟩
  · obtain ⟨name, g, hd | hd⟩ := h.locked c hc
    · rw [hd] at hr
      exact hr
    · rw [hd] at hr
      exact hr
  · obtain hl | hl := hlive g hg
    · obtain hl' | hl' := hlive g' hg'
      · rw [hn, hl'] at hl
        exact (Option.some.inj hl).symm
      · rw [hn] at hl
        exact absurd (h.clear _ _ hl' g hl) hg.2
    · obtain hl' | hl' := hlive g' hg'
      · rw [← hn] at hl'
        exact absurd (h.clear _ _ hl g' hl') hg'.2
      · rw [← hn] at hl'
        have hcall := h.alone _ _ _ hl hl'
        cases g
        cases g'
        simp_all
  · obtain hst | ⟨-, hd | hl⟩ := h.call ⟨c, name⟩ (h.done c name r hc)
    · cases hc.symm.trans hst
    · obtain ⟨-, d, pos, hpos, hne⟩ := h.gone _ hd
      exact Or.inr ⟨d, pos, hpos, hne, hd⟩
    · exact Or.inl hl
  · refine (hlive g hg).resolve_right fun hc => ?_
    rw [hc] at hr
    exact hr

theorem alone_of_ne {c : Nat} {start : Except String Unit} (h : ∀ name, s.calls c ≠ .runGraph name .called)
    (h' : ∀ name, s.calls c ≠ .runGraph name .checked) : s.Alone (.next c start) :=
  ⟨fun name hc => absurd hc (h name), fun name hc => absurd hc (h' name)⟩

/-- A step into a good state meets the condition. -/
theorem needs {e : ManagerEvent} (h : s.Inv) (hs : s.Step e t) (hg : t.Good) : s.Alone e := by
  cases hs with
  | callRun c name hc => trivial
  | callDestroy c name hc => trivial
  | taken c name err start hc hm hn =>
    have hret : ((s.goto c (.runGraph name (.returned (.error err)))).calls c).Returned := by
      rw [calls_goto, if_pos rfl]
      trivial
    exact absurd hret (hg.mutex c rfl)
  | check c name start hc hm hn =>
    refine ⟨fun name' hc' => ?_, fun name' hc' => ?_⟩
    · cases hc.symm.trans hc'
      exact hn
    · cases hc.symm.trans hc'
  | fail c name err hc =>
    refine ⟨fun name' hc' => ?_, fun name' hc' hok => ?_⟩
    · cases hc.symm.trans hc'
    · cases hok
  | start c name hc =>
    have hnew : (⟨c, name⟩ : ManagedGraph) ∉ s.started := by
      intro hmem
      obtain hst | ⟨⟨r, hr⟩, -⟩ := h.call _ hmem
      · cases hc.symm.trans hst
      · cases hc.symm.trans hr
    have hone : ∀ g : ManagedGraph, g ∈ s.started → g.name = name → g ∈ s.destroyed := by
      intro g hs hn
      by_contra hd
      have hrun : GraphManager.Running { s.goto c (.runGraph name .started) with
          started := ⟨c, name⟩ :: s.started } ⟨c, name⟩ :=
        ⟨List.mem_cons_self, fun hd => hnew (h.gone _ hd).1⟩
      have heq := hg.single g ⟨c, name⟩ ⟨List.mem_cons_of_mem _ hs, hd⟩ hrun hn
      subst heq
      exact hnew hs
    refine ⟨fun name' hc' => ?_, fun name' hc' _ => ?_⟩
    · cases hc.symm.trans hc'
    · cases hc.symm.trans hc'
      refine ⟨fun g hl => ?_, fun c' hc' => ?_⟩
      · obtain ⟨hs, hn, -⟩ := h.entry name g hl
        exact hone g hs hn
      · obtain ⟨hs, hd⟩ := h.fresh c' name hc'
        exact hd (hone _ hs rfl)
  | insert c name start hc hm => exact alone_of_ne (by simp [hc]) (by simp [hc])
  | missing c name err start hc hm hn => exact alone_of_ne (by simp [hc]) (by simp [hc])
  | find c name g start hc hm hg => exact alone_of_ne (by simp [hc]) (by simp [hc])
  | destroy c name g start hc => exact alone_of_ne (by simp [hc]) (by simp [hc])
  | delete c name g start hc => exact alone_of_ne (by simp [hc]) (by simp [hc])

end GraphManager.Inv

/-- A run of the service keeps the registry's promises exactly when every `RunGraph` is alone on its name. -/
theorem GraphManager.good_iff_alone (es : List ManagerEvent) :
    Always GraphManager.step GraphManager.Good .init es ↔ Meets GraphManager.step GraphManager.Alone .init es :=
  always_iff_meets (fun _ => Inv.good) (fun _ _ _ h ht ha => h.step (step_cases ht) ha)
    (fun _ _ _ h ht hg => h.needs (step_cases ht) hg) init_inv

/-- The second `RunGraph` of a name leaves the mutex locked; two that overlap both run. -/
theorem GraphManager.run_twice_not_good :
    ¬ Always GraphManager.step GraphManager.Good .init
        [.runGraph 0 "g", .next 0 (.ok ()), .next 0 (.ok ()), .next 0 (.ok ()),
          .runGraph 1 "g", .next 1 (.ok ())] ∧
      ¬ Always GraphManager.step GraphManager.Good .init
        [.runGraph 0 "g", .runGraph 1 "g", .next 0 (.ok ()), .next 1 (.ok ()), .next 0 (.ok ()),
          .next 1 (.ok ())] := by
  refine ⟨fun h => ?_, fun h => ?_⟩
  · have hgood := ((((((h.2 _ rfl).2 _ rfl).2 _ rfl).2 _ rfl).2 _ rfl).2 _ rfl).mutex 1 rfl
    exact hgood trivial
  · have hgood := ((((((h.2 _ rfl).2 _ rfl).2 _ rfl).2 _ rfl).2 _ rfl).2 _ rfl).single ⟨0, "g"⟩ ⟨1, "g"⟩
      ⟨by simp [goto, init], by simp [goto, init]⟩ ⟨by simp [goto, init], by simp [goto, init]⟩ rfl
    cases hgood

end Dni
