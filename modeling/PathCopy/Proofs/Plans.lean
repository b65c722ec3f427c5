import PathCopy.Proofs.Indifference

/-!
The two parts of an update. Its plan, the procedure and the paths to copy, depends only on its text
and its argument; carrying the plan out depends on the options that hold for it. The cache and the
settings of the process have no other part in an update.
-/

namespace PathCopy

namespace Update

variable {u : Update} {w : Workspace}

/-- The procedure of an update and the paths to copy, or why it fails before anything is copied. -/
def plan (u : Update) (st : Store) : Except UpdateError (Procedure × List KeyPath) :=
  match Compiled.ofSource 0 u.source with
  | .error e => .error (.ofCompile e)
  | .ok compiled =>
    if compiled.paths.isEmpty then .error .emptyUpdate
    else match resolvePaths st u.args compiled.paths with
      | .error e => .error (.argument e)
      | .ok paths => .ok (compiled.procedure, paths)

/-- Copies the root along the paths, runs the procedure on the copy, and freezes the result, all as
the options say. -/
def carryOut (u : Update) (options : EffectiveOptions) (procedure : Procedure)
    (paths : List KeyPath) (root : Value) (held : List Value) (st : Store) :
    Except UpdateError Value × Store :=
  let (copy, copying) := st.copy options.keepClass root paths
  match procedure.run (u.kept root held) u.captures copy u.args copying.store with
  | (.error e, st) => (.error (.eval e), st)
  | (.ok v, st) => (.ok v, if options.freezeResult then st.deepFreeze v else st)

theorem applyPaths_eq_carryOut (u : Update) (procedure : Procedure) (paths : List KeyPath)
    (root : Value) (held : List Value) (w : Workspace) :
    u.applyPaths procedure paths root held w =
      let done := u.carryOut (w.settings.effective u.options).1 procedure paths root held w.store
      (done.1, ⟨(w.settings.effective u.options).2, w.cache, done.2⟩) := by
  unfold applyPaths carryOut Workspace.finish
  dsimp only
  rcases procedure.run _ _ _ _ _ with ⟨e | v, st⟩
  · rfl
  · cases (w.settings.effective u.options).1.freezeResult <;> rfl

/-- An update fails by its plan, or it is carried out with the options that hold for it. -/
theorem apply_eq_plan (u : Update) (root : Value) (held : List Value) (w : Workspace) :
    u.apply root held w = match u.plan w.store with
      | .error e => (.error e, { w with cache := (w.cache.compile u.source).2 })
      | .ok (procedure, paths) =>
        let done := u.carryOut (w.settings.effective u.options).1 procedure paths root held w.store
        (done.1,
          ⟨(w.settings.effective u.options).2, (w.cache.compile u.source).2, done.2⟩) := by
  unfold apply plan Workspace.compile
  rcases hcompile : w.cache.compile u.source with ⟨e | compiled, cache⟩
  · obtain ⟨serial, hsource⟩ := PathCache.ofSource_of_compile_error hcompile
    rw [Compiled.ofSource_serial u.source serial, hsource]
    rfl
  · have hsource := PathCache.ofSource_of_compile hcompile
    rw [Compiled.ofSource_serial u.source compiled.serial, hsource]
    dsimp only [Except.map]
    cases compiled.paths.isEmpty with
    | true => rfl
    | false =>
        cases resolvePaths w.store u.args compiled.paths with
        | error e => rfl
        | ok paths => exact applyPaths_eq_carryOut ..

/-- An update changes the cache as compiling its text does. -/
theorem cache_apply (u : Update) (root : Value) (held : List Value) (w : Workspace) :
    (u.apply root held w).2.cache = (w.cache.compile u.source).2 := by
  rw [apply_eq_plan]
  cases u.plan w.store <;> rfl

end Update

end PathCopy
