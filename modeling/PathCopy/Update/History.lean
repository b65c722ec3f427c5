import PathCopy.Update.Apply

/-!
Histories of updates. A history begins with one root; every update that succeeds adds its result as
a further root. All roots stay at hand, and an update can be applied to any of them.
-/

namespace PathCopy

/-- The roots of a history, the first one and the results in the order in which they came about. -/
structure History where
  workspace : Workspace
  first : Value
  results : List Value

namespace History

def start (w : Workspace) (root : Value) : History := ⟨w, root, []⟩

/-- All roots, the oldest first. -/
def roots (h : History) : List Value := h.first :: h.results

def latest (h : History) : Value := h.results.getLastD h.first

def root? (h : History) (number : Nat) : Option Value := h.roots[number]?

@[simp] theorem root?_zero (h : History) : h.root? 0 = some h.first := rfl

/-- Applies an update to a root; the caller holds all roots. -/
def apply (h : History) (u : Update) (root : Value) : Except UpdateError Value × History :=
  match u.apply root h.roots h.workspace with
  | (.ok v, workspace) => (.ok v, { h with workspace, results := h.results ++ [v] })
  | (.error e, workspace) => (.error e, { h with workspace })

end History

end PathCopy
