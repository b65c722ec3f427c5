import PathCopy.Path.Extract
import PathCopy.Procedure.Parser
import PathCopy.Value.Table

/-!
Compiled procedures, kept by their text. A text is compiled once; a text that does not compile is
not kept.
-/

namespace PathCopy

/-- A procedure with its write paths. The serial number tells compilations of one cache apart. -/
structure Compiled where
  serial : Nat
  procedure : Procedure
  paths : List WritePath

inductive CompileError
  | parse (error : ParseError)
  | analysis (error : AnalysisError)
  deriving DecidableEq

def Compiled.ofSource (serial : Nat) (source : String) : Except CompileError Compiled :=
  match Procedure.parse source with
  | .error e => .error (.parse e)
  | .ok procedure => match procedure.writePaths with
    | .error e => .error (.analysis e)
    | .ok paths => .ok ⟨serial, procedure, paths⟩

theorem Compiled.serial_of_ofSource {serial : Nat} {source : String} {c : Compiled}
    (h : Compiled.ofSource serial source = .ok c) : c.serial = serial := by
  unfold Compiled.ofSource at h
  split at h
  · cases h
  · split at h
    · cases h
    · cases h
      rfl

/-- The procedures compiled so far by their texts, and how often a text was compiled or found. An
entry is what its text compiles to. -/
structure PathCache where
  entries : Table Compiled
  compilations : Nat
  hits : Nat
  ofSource_eq : ∀ source c, entries.get? source = some c →
    Compiled.ofSource c.serial source = .ok c

structure CacheStats where
  entries : Nat
  compilations : Nat
  hits : Nat
  deriving DecidableEq

namespace PathCache

def empty : PathCache := ⟨.empty, 0, 0, fun _ _ h => nomatch h⟩

/-- The compiled procedure of a text, from the cache if it is there. -/
def compile (c : PathCache) (source : String) : Except CompileError Compiled × PathCache :=
  match c.entries.get? source with
  | some compiled => (.ok compiled, { c with hits := c.hits + 1 })
  | none => match h : Compiled.ofSource c.compilations source with
    | .error e => (.error e, c)
    | .ok compiled =>
      (.ok compiled,
        { c with
          entries := c.entries.insert source compiled
          compilations := c.compilations + 1
          ofSource_eq := by
            intro text entry hentry
            rw [Table.get?_insert] at hentry
            split at hentry
            · next htext =>
              cases hentry
              rw [Compiled.serial_of_ofSource h, htext]
              exact h
            · exact c.ofSource_eq text entry hentry })

/-- A compiled procedure is what its text compiles to, whether it was in the cache or not. -/
theorem ofSource_of_compile {c cache : PathCache} {source : String} {compiled : Compiled}
    (h : c.compile source = (.ok compiled, cache)) :
    Compiled.ofSource compiled.serial source = .ok compiled := by
  unfold compile at h
  split at h
  · next entry hentry =>
    cases h
    exact c.ofSource_eq source compiled hentry
  · split at h
    · cases h
    · next result hresult =>
      cases h
      rw [Compiled.serial_of_ofSource hresult]
      exact hresult

/-- A text is refused for what its compilation says. -/
theorem ofSource_of_compile_error {c cache : PathCache} {source : String} {e : CompileError}
    (h : c.compile source = (.error e, cache)) :
    ∃ serial, Compiled.ofSource serial source = .error e := by
  unfold compile at h
  split at h
  · cases h
  · split at h
    · next error herror =>
      cases h
      exact ⟨_, herror⟩
    · cases h

def writePaths (c : PathCache) (source : String) :
    Except CompileError (List WritePath) × PathCache :=
  let (compiled, c) := c.compile source
  (compiled.map Compiled.paths, c)

def contains (c : PathCache) (source : String) : Bool := c.entries.contains source

def size (c : PathCache) : Nat := c.entries.size

def stats (c : PathCache) : CacheStats := ⟨c.size, c.compilations, c.hits⟩

def summary (c : PathCache) : String :=
  "PathCache \x7b stats: CacheStats \x7b entries: " ++ toString c.size ++ ", compilations: "
    ++ toString c.compilations ++ ", hits: " ++ toString c.hits ++ " \x7d \x7d"

end PathCache

end PathCopy
