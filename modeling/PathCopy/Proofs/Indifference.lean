import PathCopy.Proofs.Ownership
import PathCopy.Proofs.TwinCopies
import PathCopy.Proofs.Twinning

/-!
Indifference. What an update comes to does not depend on which nodes of its inputs are shared or
frozen. Applied to inputs that are the same trees, it ends well with results that are the same tree,
or it fails alike; a refused write may only blame the flag of a node in one case and its handles in
the other.
-/

namespace PathCopy

open Store

variable {st st' : Store} {v v' : Value}

/-! ### Before the run -/

theorem Store.Likeness.fields? {R : Value → Value → Prop} (h : Likeness st st' R) (hv : R v v') :
    Option.Rel (Table.Match R) (st.fields? v) (st'.fields? v') := by
  obtain ⟨a, rfl, rfl⟩ | ⟨r, s, rfl, rfl, hmatch⟩ := h.cases hv
  · exact .none
  · rw [Store.fields?, Store.fields?]
    generalize st.body r = b, st'.body s = b' at hmatch ⊢
    cases hmatch with
    | map hentries => exact .some hentries
    | record cls hfields => exact .some hfields
    | date ms => exact .none
    | list hitems => exact .none

theorem Store.Likeness.resolve {R : Value → Value → Prop} (h : Likeness st st' R) (hv : R v v')
    (segment : Segment) : segment.resolve st' v' = segment.resolve st v := by
  cases segment with
  | key text => rfl
  | whole => rw [Segment.resolve, Segment.resolve, key?_eq (h.scalar? hv), h.kind hv]
  | named field =>
      rw [Segment.resolve, Segment.resolve, h.kind hv]
      have hfields := h.fields? hv
      generalize st.fields? v = found, st'.fields? v' = found' at hfields ⊢
      cases hfields with
      | none => rfl
      | @some t t' ht =>
          have hget := ht.get? field
          dsimp only
          generalize t.get? field = c, t'.get? field = c' at hget ⊢
          cases hget with
          | none => rfl
          | some hc =>
              dsimp only
              rw [key?_eq (h.scalar? hc), h.kind hc]

theorem resolvePaths_alike {arg arg' : Option Value} (h : Option.Rel (Alike st st') arg arg')
    (paths : List WritePath) : resolvePaths st' arg' paths = resolvePaths st arg paths := by
  have hvalue : Alike st st' (arg.getD .undefined) (arg'.getD .undefined) := by
    cases h with
    | none => exact .scalar _
    | some h => exact h
  have hsegment := funext ((likeness_alike st st').resolve hvalue)
  have hpath : WritePath.resolve st' (arg'.getD .undefined) =
      WritePath.resolve st (arg.getD .undefined) := by
    funext p
    rw [WritePath.resolve, WritePath.resolve, hsegment]
  rw [resolvePaths, resolvePaths, hpath]

theorem Compiled.ofSource_serial (source : String) (serial serial' : ℕ) :
    Compiled.ofSource serial' source =
      (Compiled.ofSource serial source).map fun c => { c with serial := serial' } := by
  unfold Compiled.ofSource
  split
  · rfl
  · split <;> rfl

/-- What a text compiles to depends on the workspace in its serial number only. -/
theorem Workspace.compile_cases (w w' : Workspace) (source : String) :
    (∃ e cache cache', w.compile source = (.error e, { w with cache }) ∧
      w'.compile source = (.error e, { w' with cache := cache' })) ∨
    ∃ c c' cache cache', w.compile source = (.ok c, { w with cache }) ∧
      w'.compile source = (.ok c', { w' with cache := cache' }) ∧
      c'.procedure = c.procedure ∧ c'.paths = c.paths := by
  unfold Workspace.compile
  rcases hleft : w.cache.compile source with ⟨result, cache⟩
  rcases hright : w'.cache.compile source with ⟨result', cache'⟩
  -- A compilation depends on the text alone but for the serial number.
  cases result with
  | error e =>
      obtain ⟨serial, hfail⟩ := PathCache.ofSource_of_compile_error hleft
      cases result' with
      | error e' =>
          obtain ⟨serial', hfail'⟩ := PathCache.ofSource_of_compile_error hright
          rw [Compiled.ofSource_serial source serial, hfail] at hfail'
          cases hfail'
          exact .inl ⟨_, cache, cache', rfl, rfl⟩
      | ok c' =>
          have hok := PathCache.ofSource_of_compile hright
          rw [Compiled.ofSource_serial source serial, hfail] at hok
          cases hok
  | ok c =>
      have hok := PathCache.ofSource_of_compile hleft
      cases result' with
      | error e' =>
          obtain ⟨serial', hfail'⟩ := PathCache.ofSource_of_compile_error hright
          rw [Compiled.ofSource_serial source c.serial, hok] at hfail'
          cases hfail'
      | ok c' =>
          have hok' := PathCache.ofSource_of_compile hright
          rw [Compiled.ofSource_serial source c.serial, hok] at hok'
          have hsame : { c with serial := c'.serial } = c' := Except.ok.inj hok'
          refine .inr ⟨c, c', cache, cache', rfl, rfl, ?_, ?_⟩
          · rw [← hsame]
          · rw [← hsame]

/-! ### The run -/

variable {o o' : Origin} {n : ℕ} {state state' : Value} {arg arg' : Option Value}
  {captures captures' : List (String × Value)}

theorem parameterScope_match {R : Value → Value → Prop} (p : Procedure) (hstate : R state state')
    (harg : R (arg.getD .undefined) (arg'.getD .undefined)) :
    (p.parameterScope state arg).Match R (p.parameterScope state' arg') := by
  rw [Procedure.parameterScope.eq_def, Procedure.parameterScope.eq_def]
  have hfirst : ∀ s : Param, Scope.Match R [(s.name, ⟨state, true⟩)] [(s.name, ⟨state', true⟩)] :=
    fun s => .cons ⟨rfl, rfl, hstate⟩ .nil
  split
  · exact .nil
  · next s _ => exact hfirst s
  · next s a _ _ => exact (hfirst s).put (Binding.match_of_value harg true) a.name

theorem captureScope_match {R : Value → Value → Prop} (p : Procedure)
    (h : List.Forall₂ (fun c c' => c'.1 = c.1 ∧ R c.2 c'.2) captures captures') :
    (p.captureScope captures).Match R (p.captureScope captures') := by
  refine List.rel_foldl (P := Scope.Match R) ?_ .nil h
  rintro s s' hs ⟨text, v⟩ ⟨text', v'⟩ ⟨rfl : text' = text, hv⟩
  dsimp only
  split
  · exact hs.put (Binding.match_of_value hv false) _
  · exact hs

theorem spareArgument_match {R : Value → Value → Prop} (p : Procedure)
    (h : Option.Rel R arg arg') : ∃ ps : List (Value × Value),
      p.spareArgument arg = ps.map Prod.fst ∧ p.spareArgument arg' = ps.map Prod.snd ∧
      ∀ q ∈ ps, R q.1 q.2 := by
  rw [Procedure.spareArgument.eq_def, Procedure.spareArgument.eq_def]
  split
  · cases h with
    | none => exact ⟨[], rfl, rfl, List.forall_mem_nil _⟩
    | @some a a' ha => exact ⟨[(a, a')], rfl, rfl, List.forall_mem_singleton.mpr ha⟩
  · exact ⟨[], rfl, rfl, List.forall_mem_nil _⟩

/-- The ends of two runs: twins in parallel stores, or failures of one sort. -/
inductive RunsAlike (o o' : Origin) : Except EvalError Value × Store →
    Except EvalError Value × Store → Prop
  | ok {m : ℕ} {st st' : Store} {v v' : Value} (parallel : Parallel o o' m st st')
      (twin : Twin o o' m v v') : RunsAlike o o' (.ok v, st) (.ok v', st')
  | error {e e' : EvalError} {st st' : Store} (same : e.Same e') :
      RunsAlike o o' (.error e, st) (.error e', st')

/-- Two runs of a procedure on twins end with twins, or fail alike. -/
theorem Procedure.run_twins (p : Procedure) (h : Parallel o o' n st st')
    (hstate : Twin o o' n state state') (harg : Option.Rel (Twin o o' n) arg arg')
    (hcaptures : List.Forall₂ (fun c c' => c'.1 = c.1 ∧ Twin o o' n c.2 c'.2) captures captures') :
    RunsAlike o o' (p.run o.kept captures state arg st)
      (p.run o'.kept captures' state' arg' st') := by
  cases hparams : p.params with
  | nil =>
      simp only [run, hparams]
      exact .ok h hstate
  | cons s rest =>
      obtain ⟨ps, hspare, hspare', hps⟩ := spareArgument_match p harg
      have hvalue : Twin o o' n (arg.getD .undefined) (arg'.getD .undefined) := by
        cases harg with
        | none => exact .scalar _
        | some h => exact h
      have hstart : Abreast o o' ps (p.initial captures state arg st)
          (p.initial captures' state' arg' st') :=
        ⟨n, h, .cons (parameterScope_match p hstate hvalue)
          (.cons (captureScope_match p hcaptures) .nil), hps⟩
      have hheld : Run.Holds o o' ps (p.spareArgument arg ++ o.kept)
          (p.spareArgument arg' ++ o'.kept) := by
        rw [hspare, hspare']
        exact ⟨rfl, rfl⟩
      have hruns := (Run.twinning o o').execBody p.names hheld p.body
      simp only [run, hparams]
      cases hright : p.execute o'.kept captures' state' arg' st' with
      | ok flow a =>
          obtain ⟨flow', b, hleft, rfl, m, hend⟩ := hruns.ok hstart hright
          rw [execute, hleft]
          refine .ok hend.parallel ?_
          -- The result is what the state parameter is bound to, and the scopes are twins.
          have hfound := hend.scopes.find? s.name
          generalize b.scopes.find? s.name = c, a.scopes.find? s.name = d at hfound ⊢
          cases hfound with
          | none => exact .scalar _
          | some hcd => exact hcd.2
      | error e a =>
          obtain ⟨e', he', hsame⟩ := hruns.error hstart hright
          rw [execute]
          cases hleft : Run.execBody p.names (p.spareArgument arg ++ o.kept) p.body
              (p.initial captures state arg st) with
          | ok flow' b =>
              rw [hleft] at he'
              cases he'
          | error e'' b =>
              rw [hleft] at he'
              cases he'
              exact .error hsame

/-! ### Updates -/

/-- The same failure, whether a refused write met a frozen or a shared node. -/
def UpdateError.Same : UpdateError → UpdateError → Prop
  | .eval e, .eval e' => e.Same e'
  | e, e' => e = e'

theorem UpdateError.same_refl (e : UpdateError) : e.Same e := by
  cases e with
  | eval e => exact ⟨rfl, rfl⟩
  | _ => rfl

theorem Alike.freeze {st₁ st₁' : Store} (h : Alike st st' v v') (hfrozen : st.Frozen st₁)
    (hfrozen' : st'.Frozen st₁') : Alike st₁ st₁' v v' := by
  have hlikeness : Likeness st₁ st₁' (Alike st st') := { likeness_alike st st' with
    node := fun hvw => by
      obtain ⟨s, rfl, hmatch⟩ := (likeness_alike st st').node hvw
      exact ⟨s, rfl, by rwa [hfrozen.body_eq, hfrozen'.body_eq]⟩ }
  exact hlikeness.alike (hfrozen.agreeBelow.founded h.founded) h

namespace Update

/-- Two updates end alike: with results that are the same tree, or with the same failure. -/
inductive EndsAlike : Except UpdateError Value × Workspace →
    Except UpdateError Value × Workspace → Prop
  | ok {v v' : Value} {w w' : Workspace} (alike : Alike w.store w'.store v v') :
      EndsAlike (.ok v, w) (.ok v', w')
  | error {e e' : UpdateError} {w w' : Workspace} (same : e.Same e') :
      EndsAlike (.error e, w) (.error e', w')

/-- Freezing the results of runs that end alike. -/
theorem endsAlike_of_runs {x y : Except EvalError Value × Store} (h : RunsAlike o o' x y)
    (settings settings' : Settings) (cache cache' : PathCache) (freeze freeze' : Bool) :
    EndsAlike
      (match x.1 with
        | .error e => (.error (.eval e), ⟨settings, cache, x.2⟩)
        | .ok v => (.ok v, Workspace.finish ⟨settings, cache, x.2⟩ freeze v))
      (match y.1 with
        | .error e => (.error (.eval e), ⟨settings', cache', y.2⟩)
        | .ok v => (.ok v, Workspace.finish ⟨settings', cache', y.2⟩ freeze' v)) := by
  cases h with
  | ok hparallel htwin =>
      exact .ok ((hparallel.alike htwin).freeze (frozen_finish ⟨_, _, _⟩ _ _)
        (frozen_finish ⟨_, _, _⟩ _ _))
  | error hsame => exact .error hsame

/-- The same text and options, for inputs that are the same trees. -/
structure AlikeInputs (u u' : Update) (root root' : Value) (w w' : Workspace) : Prop where
  source : u'.source = u.source
  options : u'.options = u.options
  defaults : w'.settings.defaults = w.settings.defaults
  root : Alike w.store w'.store root root'
  args : Option.Rel (Alike w.store w'.store) u.args u'.args
  captures : List.Forall₂ (fun c c' => c'.1 = c.1 ∧ Alike w.store w'.store c.2 c'.2) u.captures
    u'.captures

variable {u u' : Update} {root root' : Value} {held held' : List Value} {w w' : Workspace}

/-- The store that an update is given, and what its caller holds there. -/
abbrev origin (hsound : w.store.Sound (u.kept root held)) : Origin := ⟨w.store, _, hsound⟩

theorem keepClass_effective (h : AlikeInputs u u' root root' w w') :
    (w'.settings.effective u'.options).1.keepClass =
      (w.settings.effective u.options).1.keepClass := by
  simp only [Settings.effective, Settings.readMode, UpdateOptions.resolve, h.options, h.defaults]

theorem applyPaths_alike (h : AlikeInputs u u' root root' w w')
    (hsound : w.store.Sound (u.kept root held)) (hsound' : w'.store.Sound (u'.kept root' held'))
    (p : Procedure) (paths : List KeyPath) :
    EndsAlike (u.applyPaths p paths root held w) (u'.applyPaths p paths root' held' w') := by
  have hold : ∀ {n v v'}, v ∈ u.kept root held → v' ∈ u'.kept root' held' →
      Alike w.store w'.store v v' → Twin (origin hsound) (origin hsound') n v v' :=
    fun hv hv' halike => .old (within_of_mem hv) (within_of_mem hv') halike
  obtain ⟨n, -, hparallel, hcopy⟩ := Store.copy_twins (.start (origin hsound) (origin hsound'))
    (hold List.mem_cons_self List.mem_cons_self h.root)
    (w.settings.effective u.options).1.keepClass paths
  have hargs := rel_imp_mem h.args fun a ha a' ha' halike =>
    hold (n := n) (args_subset_kept u root held ha) (args_subset_kept u' root' held' ha') halike
  have hcaptures := forall₂_imp_mem h.captures fun c hc c' hc' hcc' =>
    And.intro hcc'.1 (hold (n := n)
      (captures_subset_kept u root held (List.mem_map_of_mem hc))
      (captures_subset_kept u' root' held' (List.mem_map_of_mem hc')) hcc'.2)
  have hruns := p.run_twins hparallel hcopy hargs hcaptures
  unfold applyPaths
  dsimp only
  rw [keepClass_effective h]
  exact endsAlike_of_runs hruns _ _ _ _ _ _

/-- What an update comes to does not depend on which nodes of its inputs are shared or frozen, nor
on what else the caller holds: from inputs that are the same trees it ends alike. -/
theorem apply_alike (h : AlikeInputs u u' root root' w w')
    (hsound : w.store.Sound (u.kept root held)) (hsound' : w'.store.Sound (u'.kept root' held')) :
    EndsAlike (u.apply root held w) (u'.apply root' held' w') := by
  have herror : ∀ {e : UpdateError} {w w' : Workspace}, EndsAlike (.error e, w) (.error e, w') :=
    .error (UpdateError.same_refl _)
  unfold apply
  rw [h.source]
  rcases w.compile_cases w' u.source with ⟨e, cache, cache', hleft, hright⟩ |
    ⟨c, c', cache, cache', hleft, hright, hprocedure, hpaths⟩
  · rw [hleft, hright]
    exact herror
  · rw [hleft, hright]
    dsimp only
    rw [hprocedure, hpaths, resolvePaths_alike h.args]
    split
    · exact herror
    · split
      · exact herror
      · have hinputs : AlikeInputs u u' root root' { w with cache } { w' with cache := cache' } :=
          ⟨h.source, h.options, h.defaults, h.root, h.args, h.captures⟩
        exact applyPaths_alike hinputs hsound hsound' _ _

def together : Workspace :=
  .fresh none ⟨#[⟨true, .record none (.ofList [("city", .text "Rome")])⟩,
    ⟨false, .record none (.ofList [("home", .node ⟨0⟩), ("away", .node ⟨0⟩)])⟩]⟩

def apart : Workspace :=
  .fresh none ⟨#[⟨false, .record none (.ofList [("city", .text "Rome")])⟩,
    ⟨false, .record none (.ofList [("city", .text "Rome")])⟩,
    ⟨false, .record none (.ofList [("home", .node ⟨0⟩), ("away", .node ⟨1⟩)])⟩]⟩

def relocate : Update :=
  ⟨"(s, a) => \x7b s.home.city = a \x7d", some (.text "Oslo"), [], ⟨none, some false⟩⟩

theorem apply_alike_relocate :
    ∃ out out' w w', relocate.apply (.node ⟨1⟩) [] together = (.ok out, w) ∧
      relocate.apply (.node ⟨2⟩) [] apart = (.ok out', w') ∧ Alike w.store w'.store out out' := by
  have hcity : List.Forall₂ (Alike together.store apart.store) [.text "Rome"] [.text "Rome"] :=
    .cons (.scalar _) .nil
  have hhome : Alike together.store apart.store (.node ⟨0⟩) (.node ⟨0⟩) := .node rfl hcity
  have haway : Alike together.store apart.store (.node ⟨0⟩) (.node ⟨1⟩) := .node rfl hcity
  have hinputs : AlikeInputs relocate relocate (.node ⟨1⟩) (.node ⟨2⟩) together apart :=
    ⟨rfl, rfl, rfl, .node rfl (.cons hhome (.cons haway .nil)), .some (.scalar _), .nil⟩
  have hsound : together.store.Sound (relocate.kept (.node ⟨1⟩) []) :=
    Layered.sound (by decide) (by decide)
  have hsound' : apart.store.Sound (relocate.kept (.node ⟨2⟩) []) :=
    Layered.sound (by decide) (by decide)
  have halike := apply_alike hinputs hsound hsound'
  have hok : (relocate.apply (.node ⟨1⟩) [] together).1.toOption.isSome := by decide +kernel
  generalize relocate.apply (.node ⟨1⟩) [] together = outcome,
    relocate.apply (.node ⟨2⟩) [] apart = outcome' at halike hok ⊢
  cases halike with
  | ok h => exact ⟨_, _, _, _, rfl, rfl, h⟩
  | error h => cases hok

end Update

end PathCopy
