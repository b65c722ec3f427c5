import PathCopy.Copy
import PathCopy.Run.Eval
import PathCopy.Update.Error
import PathCopy.Update.Options
import PathCopy.Value.Freeze

/-!
Updates. A procedure reads like an edit in place. To apply it to a root, its write paths are found
in its text, the nodes on these paths are copied, and the procedure runs on the copy; the result is
frozen unless an option or the mode says otherwise. The root and everything else the caller holds
stay as they are.
-/

namespace PathCopy

/-- What updates work on: the settings of the process, a cache of compiled procedures, and the
store with all values. -/
structure Workspace where
  settings : Settings
  cache : PathCache
  store : Store

namespace Workspace

def fresh (environment : Option String) (store : Store) : Workspace :=
  ⟨.fresh environment, .empty, store⟩

def compile (w : Workspace) (source : String) : Except UpdateError Compiled × Workspace :=
  match w.cache.compile source with
  | (.ok compiled, cache) => (.ok compiled, { w with cache })
  | (.error e, cache) => (.error (.ofCompile e), { w with cache })

def finish (w : Workspace) (freeze : Bool) (v : Value) : Workspace :=
  if freeze then { w with store := w.store.deepFreeze v } else w

end Workspace

/-- One update: the text of the procedure, its argument, the values of the names it captures, and
the caller's options. -/
structure Update where
  source : String
  args : Option Value
  captures : List (String × Value)
  options : UpdateOptions

namespace Update

/-- The handles that the caller keeps while the update runs, beside `held`. -/
def kept (u : Update) (root : Value) (held : List Value) : List Value :=
  root :: (u.args.toList ++ u.captures.map Prod.snd ++ held)

/-- Copies the root along the paths, runs the procedure on the copy, and freezes the result. -/
def applyPaths (u : Update) (procedure : Procedure) (paths : List KeyPath) (root : Value)
    (held : List Value) (w : Workspace) : Except UpdateError Value × Workspace :=
  let (options, settings) := w.settings.effective u.options
  let (copy, copying) := w.store.copy options.keepClass root paths
  let (result, store) :=
    procedure.run (u.kept root held) u.captures copy u.args copying.store
  let w := { w with settings, store }
  match result with
  | .error e => (.error (.eval e), w)
  | .ok v => (.ok v, w.finish options.freezeResult v)

/-- Applies an update to a root. `held` holds the caller's handles apart from the root, the argument
and the captures. -/
def apply (u : Update) (root : Value) (held : List Value) (w : Workspace) :
    Except UpdateError Value × Workspace :=
  match w.compile u.source with
  | (.error e, w) => (.error e, w)
  | (.ok compiled, w) =>
    if compiled.paths.isEmpty then (.error .emptyUpdate, w)
    else match resolvePaths w.store u.args compiled.paths with
      | .error e => (.error (.argument e), w)
      | .ok paths => u.applyPaths compiled.procedure paths root held w

end Update

end PathCopy
