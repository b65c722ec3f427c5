import PathCopy.Text.Blank

/-!
Options of an update, and the settings of a process. The mode of a process is decided once: by its
setup, or by the first look at it, which reads the environment. Defaults can be set again and again.
-/

namespace PathCopy

inductive RuntimeMode
  | development
  | production
  deriving DecidableEq

namespace RuntimeMode

def text : RuntimeMode → String
  | development => "Development"
  | production => "Production"

/-- The mode that a value of the environment asks for; letter case and blanks around do not
matter. -/
def ofEnvironment (value : String) : RuntimeMode :=
  if (trimWhite value).toList.map Char.toLower = "production".toList then production
  else development

end RuntimeMode

/-- What a caller may say about an update; an option that is not given is left to others. -/
structure UpdateOptions where
  keepClass : Option Bool
  freezeResult : Option Bool
  deriving DecidableEq

namespace UpdateOptions

def unset : UpdateOptions := ⟨none, none⟩

/-- The options of both, where those of `other` win. -/
def merge (o other : UpdateOptions) : UpdateOptions :=
  ⟨other.keepClass.or o.keepClass, other.freezeResult.or o.freezeResult⟩

end UpdateOptions

structure EffectiveOptions where
  keepClass : Bool
  freezeResult : Bool
  deriving DecidableEq

/-- Classes are kept unless an option says otherwise; results are frozen except in production. -/
def UpdateOptions.resolve (o : UpdateOptions) (mode : RuntimeMode) : EffectiveOptions :=
  ⟨o.keepClass.getD true, o.freezeResult.getD (mode ≠ .production)⟩

/-- The settings of a process: its mode once decided, the value of the environment variable that
decides it otherwise, and the default options. -/
structure Settings where
  mode : Option RuntimeMode
  environment : Option String
  defaults : UpdateOptions

namespace Settings

def fresh (environment : Option String) : Settings := ⟨none, environment, .unset⟩

/-- The mode that holds or would be decided now. -/
def currentMode (s : Settings) : RuntimeMode :=
  s.mode.getD ((s.environment.map RuntimeMode.ofEnvironment).getD .development)

/-- Looks at the mode, which decides it. -/
def readMode (s : Settings) : RuntimeMode × Settings :=
  (s.currentMode, { s with mode := some s.currentMode })

/-- Decides the mode; fails with the mode that has been decided before. -/
def setup (s : Settings) (mode : RuntimeMode) : Except RuntimeMode Settings :=
  match s.mode with
  | some current => .error current
  | none => .ok { s with mode := some mode }

def setupRefused (current : RuntimeMode) : String :=
  "runtime mode already configured as " ++ current.text

/-- Changes the defaults that are given. -/
def setDefaults (s : Settings) (o : UpdateOptions) : Settings :=
  { s with defaults := s.defaults.merge o }

/-- The options of an update; looking them up decides the mode. -/
def effective (s : Settings) (o : UpdateOptions) : EffectiveOptions × Settings :=
  let (mode, s) := s.readMode
  ((s.defaults.merge o).resolve mode, s)

end Settings

end PathCopy
