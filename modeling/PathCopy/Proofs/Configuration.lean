import PathCopy.Proofs.Caching

/-!
The configuration of a process over time. The mode is written once, by the first call that needs it
or sets it; a default lasts until it is set again. So the options that an update goes by can be read
off the calls before it.
-/

namespace PathCopy

/-- The mode that the environment asks for. -/
def RuntimeMode.ofProcess (environment : Option String) : RuntimeMode :=
  (environment.map ofEnvironment).getD .development

namespace Workspace

/-- What a process can call. An update finds the values of its time in `store`. -/
inductive Call
  | setup (mode : RuntimeMode)
  | readMode
  | setDefaults (options : UpdateOptions)
  | compile (text : String)
  | update (update : Update) (root : Value) (held : List Value) (store : Store)

inductive Answer
  | setup (outcome : Except RuntimeMode Unit)
  | mode (mode : RuntimeMode)
  | defaults
  | compiled (outcome : Except UpdateError Compiled)
  | updated (outcome : Except UpdateError Value) (store : Store)

def perform (w : Workspace) : Call → Answer × Workspace
  | .setup mode => match w.settings.setup mode with
    | .ok settings => (.setup (.ok ()), { w with settings })
    | .error current => (.setup (.error current), w)
  | .readMode => (.mode w.settings.readMode.1, { w with settings := w.settings.readMode.2 })
  | .setDefaults options => (.defaults, { w with settings := w.settings.setDefaults options })
  | .compile text => (.compiled (w.compile text).1, (w.compile text).2)
  | .update u root held store =>
    let (outcome, w) := u.apply root held { w with store }
    (.updated outcome w.store, w)

def performAll (w : Workspace) (calls : List Call) : Workspace :=
  calls.foldl (fun w call => (w.perform call).2) w

def answers (w : Workspace) : List Call → List Answer
  | [] => []
  | call :: calls => (w.perform call).1 :: answers (w.perform call).2 calls

/-! ### What the calls say -/

section Calls

variable (environment : Option String)

/-- The mode that a call decides if none has been decided before: a setup that of its caller, a look
at the mode and an update with a plan that of the environment. -/
def Call.decision : Call → Option RuntimeMode
  | .setup mode => some mode
  | .readMode => some (.ofProcess environment)
  | .update u _ _ store =>
    if (u.plan store).toOption.isSome then some (.ofProcess environment) else none
  | .setDefaults _ | .compile _ => none

def decided (calls : List Call) : Option RuntimeMode :=
  calls.findSome? (Call.decision environment)

def Call.defaults : Call → UpdateOptions
  | .setDefaults options => options
  | .setup _ | .readMode | .compile _ | .update .. => .unset

def latest (field : UpdateOptions → Option Bool) (calls : List Call) : Option Bool :=
  calls.reverse.findSome? fun call => field call.defaults

/-- The options of an update after some calls: what the caller says, else the latest default, else
`true` for classes, and for freezing whether the mode is another than production. The mode is the
one decided, or the one that the environment asks for. -/
def optionsAfter (calls : List Call) (own : UpdateOptions) : EffectiveOptions where
  keepClass := (own.keepClass.or (latest UpdateOptions.keepClass calls)).getD true
  freezeResult := (own.freezeResult.or (latest UpdateOptions.freezeResult calls)).getD
    ((decided environment calls).getD (.ofProcess environment) ≠ .production)

/-- The answer to a call after other calls. -/
inductive Answered (calls : List Call) : Call → Answer → Prop
  | setup (mode : RuntimeMode) (h : decided environment calls = none) :
      Answered calls (.setup mode) (.setup (.ok ()))
  | setupRefused (mode : RuntimeMode) {current : RuntimeMode}
      (h : decided environment calls = some current) :
      Answered calls (.setup mode) (.setup (.error current))
  | readMode : Answered calls .readMode
      (.mode ((decided environment calls).getD (.ofProcess environment)))
  | setDefaults (options : UpdateOptions) : Answered calls (.setDefaults options) .defaults
  | compile (text : String) (serial : ℕ) :
      Answered calls (.compile text)
        (.compiled ((Compiled.ofSource serial text).mapError UpdateError.ofCompile))
  | refused {u : Update} {store : Store} {e : UpdateError} (root : Value) (held : List Value)
      (h : u.plan store = .error e) :
      Answered calls (.update u root held store) (.updated (.error e) store)
  | carriedOut {u : Update} {store : Store} {procedure : Procedure} {paths : List KeyPath}
      (root : Value) (held : List Value) (h : u.plan store = .ok (procedure, paths)) :
      Answered calls (.update u root held store)
        (.updated
          (u.carryOut (optionsAfter environment calls u.options) procedure paths root held store).1
          (u.carryOut (optionsAfter environment calls u.options) procedure paths root held store).2)

end Calls

/-! ### The settings after a call -/

section Settings

variable {environment : Option String} {calls : List Call} {call : Call} {w : Workspace}
  {mode : RuntimeMode}

theorem effective_eq (s : Settings) (own : UpdateOptions) : s.effective own =
    ((s.defaults.merge own).resolve (s.mode.getD (.ofProcess s.environment)),
      { s with mode := s.mode.or (some (.ofProcess s.environment)) }) := by
  obtain ⟨_ | mode, environment, defaults⟩ := s
  · rfl
  · rfl

theorem outcome_compile (w : Workspace) (text : String) :
    (w.compile text).1 = (w.cache.compile text).1.mapError .ofCompile := by
  rw [Workspace.compile]
  rcases w.cache.compile text with ⟨e | compiled, cache⟩ <;> rfl

/-- A call decides the mode if it is open, and sets the defaults that it gives. -/
theorem settings_perform (w : Workspace) (call : Call) : (w.perform call).2.settings =
    { mode := w.settings.mode.or (call.decision w.settings.environment)
      environment := w.settings.environment
      defaults := w.settings.defaults.merge call.defaults } := by
  obtain ⟨⟨current, environment, defaults⟩, cache, store⟩ := w
  cases call with
  | setup mode => cases current <;> rfl
  | readMode => cases current <;> rfl
  | setDefaults options => cases current <;> rfl
  | compile text =>
      rw [perform, Workspace.compile]
      dsimp only
      rcases cache.compile text with ⟨e | compiled, cache⟩
      · cases current <;> rfl
      · cases current <;> rfl
  | update u root held store =>
      rw [perform, Update.apply_eq_plan]
      dsimp only
      rw [effective_eq, Call.decision]
      cases u.plan store with
      | error e => cases current <;> rfl
      | ok planned => rfl

theorem decided_concat (calls : List Call) (call : Call) :
    decided environment (calls ++ [call]) =
      (decided environment calls).or (call.decision environment) := by
  simp [decided, List.findSome?_append]

theorem latest_concat (field : UpdateOptions → Option Bool) (calls : List Call) (call : Call) :
    latest field (calls ++ [call]) = (field call.defaults).or (latest field calls) := by
  rw [latest, List.reverse_concat, List.findSome?_cons]
  cases field call.defaults <;> rfl

structure Configured (environment : Option String) (calls : List Call) (s : Settings) : Prop where
  mode : s.mode = decided environment calls
  environment : s.environment = environment
  keepClass : s.defaults.keepClass = latest UpdateOptions.keepClass calls
  freezeResult : s.defaults.freezeResult = latest UpdateOptions.freezeResult calls

theorem configured_fresh (environment : Option String) :
    Configured environment [] (.fresh environment) := ⟨rfl, rfl, rfl, rfl⟩

theorem Configured.perform (h : Configured environment calls w.settings) (call : Call) :
    Configured environment (calls ++ [call]) (w.perform call).2.settings := by
  rw [settings_perform]
  constructor
  · rw [decided_concat, ← h.mode, h.environment]
  · exact h.environment
  · rw [latest_concat, ← h.keepClass]
    rfl
  · rw [latest_concat, ← h.freezeResult]
    rfl

theorem Configured.performAll {before : List Call} (h : Configured environment before w.settings)
    (calls : List Call) :
    Configured environment (before ++ calls) (w.performAll calls).settings := by
  induction calls generalizing before w with
  | nil => exact (List.append_nil before).symm ▸ h
  | cons call calls ih =>
      have hrest := ih (h.perform call)
      rwa [List.append_assoc] at hrest

theorem Configured.effective (h : Configured environment calls w.settings) (own : UpdateOptions) :
    (w.settings.effective own).1 = optionsAfter environment calls own := by
  rw [effective_eq, h.mode, h.environment, optionsAfter, ← h.keepClass, ← h.freezeResult]
  rfl

theorem Configured.answered (h : Configured environment calls w.settings) (call : Call) :
    Answered environment calls call (w.perform call).1 := by
  cases call with
  | setup mode =>
      rw [Workspace.perform, Settings.setup]
      split
      · rename_i settings hsetup
        split at hsetup
        · cases hsetup
        · rename_i hmode
          exact .setup mode (h.mode.symm.trans hmode)
      · rename_i current hsetup
        split at hsetup
        · rename_i hmode
          cases hsetup
          exact .setupRefused mode (h.mode.symm.trans hmode)
        · cases hsetup
  | readMode =>
      have hcurrent : w.settings.readMode.1 =
          (decided environment calls).getD (.ofProcess environment) := by
        rw [← h.mode, ← h.environment]
        rfl
      rw [Workspace.perform, hcurrent]
      exact .readMode
  | setDefaults options => exact .setDefaults options
  | compile text =>
      -- The cache may give another serial number, and nothing else of an answer depends on it.
      obtain ⟨serial, hsource⟩ := w.cache.ofSource_compile text
      rw [Workspace.perform, outcome_compile, hsource]
      exact .compile text serial
  | update u root held store =>
      rw [Workspace.perform, Update.apply_eq_plan]
      dsimp only
      cases hplan : u.plan store with
      | error e => exact .refused root held hplan
      | ok planned =>
          dsimp only
          rw [h.effective]
          exact .carriedOut root held hplan

/-! ### The environment once the mode is decided -/

def withEnvironment (w : Workspace) (environment : Option String) : Workspace :=
  { w with settings := { w.settings with environment } }

/-- Once the mode is decided nothing depends on the environment. -/
theorem perform_withEnvironment (hmode : w.settings.mode = some mode) (environment : Option String)
    (call : Call) : (w.withEnvironment environment).perform call =
      ((w.perform call).1, (w.perform call).2.withEnvironment environment) := by
  obtain ⟨⟨current, old, defaults⟩, cache, store⟩ := w
  obtain rfl : current = some mode := hmode
  cases call with
  | setup | readMode | setDefaults => rfl
  | compile text =>
      rw [perform, perform, Workspace.compile, Workspace.compile, withEnvironment]
      dsimp only
      rcases cache.compile text with ⟨e | compiled, cache⟩ <;> rfl
  | update u root held store =>
      rw [perform, perform, Update.apply_eq_plan, Update.apply_eq_plan, withEnvironment]
      dsimp only
      cases u.plan store <;> rfl

theorem answers_withEnvironment (hmode : w.settings.mode = some mode)
    (environment : Option String) (calls : List Call) :
    (w.withEnvironment environment).answers calls = w.answers calls := by
  induction calls generalizing w with
  | nil => rfl
  | cons call calls ih =>
      have hafter : (w.perform call).2.settings.mode = some mode := by
        rw [settings_perform, hmode, Option.some_or]
      rw [answers, answers, perform_withEnvironment hmode, ih hafter]

/-- The configuration of a process, from its start on and whatever the calls. The mode is what the
first call to decide it has decided, and the answer to every call is what the calls before it say:
those that look at the mode or set it, and those that set defaults. Once decided the mode stays, and
the environment has no part in any further answer. -/
theorem configured_throughout (environment : Option String) (store : Store) (calls : List Call) :
    ((fresh environment store).performAll calls).settings.mode = decided environment calls ∧
    (∀ call, Answered environment calls call
      (((fresh environment store).performAll calls).perform call).1) ∧
    ∀ mode, decided environment calls = some mode →
      (∀ more, ((fresh environment store).performAll (calls ++ more)).settings.mode = some mode) ∧
      ∀ environment' more,
        (((fresh environment store).performAll calls).withEnvironment environment').answers more =
          ((fresh environment store).performAll calls).answers more := by
  have hconfigured : ∀ calls, Configured environment calls
      ((fresh environment store).performAll calls).settings := fun calls =>
    Configured.performAll (w := fresh environment store) (configured_fresh environment) calls
  refine ⟨(hconfigured calls).mode, (hconfigured calls).answered, fun mode hmode => ⟨?_, ?_⟩⟩
  · intro more
    rw [(hconfigured (calls ++ more)).mode, decided, List.findSome?_append]
    rw [decided] at hmode
    rw [hmode, Option.some_or]
  · intro environment' more
    exact answers_withEnvironment ((hconfigured calls).mode.trans hmode) environment' more

end Settings

end Workspace

end PathCopy
