import PathCopy.Proofs.Invariants

/-!
The points of a run. To run a phrase of a procedure is to run phrases inside it, each from some
machine and with some values at hand, and to end with one primitive step. So the machine changes
only where a phrase ends or a scope is entered, and the points where phrases begin and end are all
that a run comes through. An invariant of runs holds at each of them.
-/

namespace PathCopy

/-- What a run can be at: a phrase, a row of phrases, or the keys of a place. -/
inductive Task
  | eval (e : Expr)
  | evalList (es : List Expr)
  | evalEntries (fields : Table Value) (entries : List Property)
  | place (e : Expr)
  | keyed (base index : Expr)
  | exec (s : Stmt)
  | execList (ss : List Stmt)
  | execBody (body : ProcedureBody)

namespace Task

/-- The values that a task starts with, beside those that are held while it runs. -/
def given : Task → List Value
  | evalEntries fields _ => fields.values
  | _ => []

/-- Runs a task; the result is the values that it hands on. -/
def run (names : NameTable) (held : List Value) : Task → Run (List Value)
  | eval e => do
    let v ← Run.eval names held e
    pure [v]
  | evalList es => Run.evalList names held es
  | evalEntries fields entries => do
    let fields ← Run.evalEntries names held fields entries
    pure fields.values
  | place e => do
    let _ ← Run.place names held e
    pure []
  | keyed base index => do
    let _ ← Run.keyed names held base index
    pure []
  | exec s => do
    let _ ← Run.exec names held s
    pure []
  | execList ss => do
    let _ ← Run.execList names held ss
    pure []
  | execBody body => do
    let _ ← Run.execBody names held body
    pure []

end Task

/-- A task with the values that are held while it runs, and the machine that it starts from. -/
structure Phase where
  task : Task
  held : List Value
  machine : Machine

/-- The values at hand at some moment of a run, and the machine. -/
structure Point where
  values : List Value
  machine : Machine

namespace Phase

/-- What a phase runs directly, one case for each part that a run evaluates or executes. A part that
comes after another one starts where that one ended well. -/
inductive Calls (names : NameTable) : Phase → Phase → Prop
  -- Reads.
  | member {held m site base prop} :
      Calls names ⟨.eval (.member site base prop), held, m⟩ ⟨.eval base, held, m⟩
  | indexBase {held m site base index} :
      Calls names ⟨.eval (.index site base index), held, m⟩ ⟨.eval base, held, m⟩
  | indexKey {held m m' site base index v} (first : Run.eval names held base m = .ok v m') :
      Calls names ⟨.eval (.index site base index), held, m⟩ ⟨.eval index, v :: held, m'⟩
  -- Calls.
  | setKey {held m site site' base prop index value} (set : names.lookup prop = "set") :
      Calls names ⟨.eval (.call site (.member site' base prop) [index, value]), held, m⟩
        ⟨.keyed base index, held, m⟩
  | setValue {held m m' site site' base prop index value a} (set : names.lookup prop = "set")
      (first : Run.keyed names held base index m = .ok a m') :
      Calls names ⟨.eval (.call site (.member site' base prop) [index, value]), held, m⟩
        ⟨.eval value, held, m'⟩
  | deleteKey {held m site site' base prop index} (delete : names.lookup prop = "delete") :
      Calls names ⟨.eval (.call site (.member site' base prop) [index]), held, m⟩
        ⟨.keyed base index, held, m⟩
  | receiver {held m site site' base prop args}
      (set : ∀ index value, names.lookup prop = "set" → args = [index, value] → False)
      (delete : ∀ index, names.lookup prop = "delete" → args = [index] → False) :
      Calls names ⟨.eval (.call site (.member site' base prop) args), held, m⟩
        ⟨.eval base, held, m⟩
  | args {held m m' site site' base prop args v}
      (set : ∀ index value, names.lookup prop = "set" → args = [index, value] → False)
      (delete : ∀ index, names.lookup prop = "delete" → args = [index] → False)
      (first : Run.eval names held base m = .ok v m') :
      Calls names ⟨.eval (.call site (.member site' base prop) args), held, m⟩
        ⟨.evalList args, v :: held, m'⟩
  -- Assignments and steps.
  | assignTarget {held m site op target value} :
      Calls names ⟨.eval (.assign site op target value), held, m⟩ ⟨.place target, held, m⟩
  | assignValue {held m m' site op target value p} (first : Run.place names held target m = .ok p m') :
      Calls names ⟨.eval (.assign site op target value), held, m⟩ ⟨.eval value, held, m'⟩
  | stepTarget {held m site op fixity target} :
      Calls names ⟨.eval (.step site op fixity target), held, m⟩ ⟨.place target, held, m⟩
  -- Operators and literals of containers.
  | binaryLeft {held m site op left right} :
      Calls names ⟨.eval (.binary site op left right), held, m⟩ ⟨.eval left, held, m⟩
  | binaryRight {held m m' site op left right v} (first : Run.eval names held left m = .ok v m') :
      Calls names ⟨.eval (.binary site op left right), held, m⟩ ⟨.eval right, v :: held, m'⟩
  | unary {held m site op operand} :
      Calls names ⟨.eval (.unary site op operand), held, m⟩ ⟨.eval operand, held, m⟩
  | array {held m site items} :
      Calls names ⟨.eval (.array site items), held, m⟩ ⟨.evalList items, held, m⟩
  | object {held m site entries} :
      Calls names ⟨.eval (.object site entries), held, m⟩ ⟨.evalEntries .empty entries, held, m⟩
  -- Rows of expressions and entries.
  | head {held m e es} : Calls names ⟨.evalList (e :: es), held, m⟩ ⟨.eval e, held, m⟩
  | tail {held m m' e es v} (first : Run.eval names held e m = .ok v m') :
      Calls names ⟨.evalList (e :: es), held, m⟩ ⟨.evalList es, v :: held, m'⟩
  | entry {held m fields name span value rest} :
      Calls names ⟨.evalEntries fields (.entry name span value :: rest), held, m⟩
        ⟨.eval value, fields.values ++ held, m⟩
  | entries {held m m' fields name span value rest v}
      (first : Run.eval names (fields.values ++ held) value m = .ok v m') :
      Calls names ⟨.evalEntries fields (.entry name span value :: rest), held, m⟩
        ⟨.evalEntries (fields.insert (names.lookup name) v) rest, held, m'⟩
  -- Places.
  | placeMember {held m site base prop} :
      Calls names ⟨.place (.member site base prop), held, m⟩ ⟨.place base, held, m⟩
  | placeIndex {held m site base index} :
      Calls names ⟨.place (.index site base index), held, m⟩ ⟨.keyed base index, held, m⟩
  | placeEntry {held m site site' base prop index} (get : names.lookup prop = "get") :
      Calls names ⟨.place (.call site (.member site' base prop) [index]), held, m⟩
        ⟨.keyed base index, held, m⟩
  | keyedBase {held m base index} :
      Calls names ⟨.keyed base index, held, m⟩ ⟨.place base, held, m⟩
  | keyedIndex {held m m' base index p} (first : Run.place names held base m = .ok p m') :
      Calls names ⟨.keyed base index, held, m⟩ ⟨.eval index, held, m'⟩
  -- Statements.
  | expr {held m span value} :
      Calls names ⟨.exec (.expr span value), held, m⟩ ⟨.eval value, held, m⟩
  | declare {held m span name assignable value} :
      Calls names ⟨.exec (.declare span name assignable (some value)), held, m⟩
        ⟨.eval value, held, m⟩
  | ret {held m span value} :
      Calls names ⟨.exec (.ret span (some value)), held, m⟩ ⟨.eval value, held, m⟩
  | block {held m span start body} :
      Calls names ⟨.exec (.block span start body), held, m⟩
        ⟨.execList body, held, { m with scopes := [] :: m.scopes }⟩
  | first {held m s rest} : Calls names ⟨.execList (s :: rest), held, m⟩ ⟨.exec s, held, m⟩
  | next {held m m' s rest} (first : Run.exec names held s m = .ok .next m') :
      Calls names ⟨.execList (s :: rest), held, m⟩ ⟨.execList rest, held, m'⟩
  | bodyExpr {held m value} :
      Calls names ⟨.execBody (.expr value), held, m⟩ ⟨.eval value, held, m⟩
  | bodyBlock {held m start body} :
      Calls names ⟨.execBody (.block start body), held, m⟩
        ⟨.execList body, held, { m with scopes := [] :: m.scopes }⟩

/-- A point that the run of a phase comes through: where it or a part of it begins or ends. -/
inductive Passes (names : NameTable) : Phase → Point → Prop
  | start {ph} : Passes names ph ⟨ph.task.given ++ ph.held, ph.machine⟩
  | done {ph vs m} (run : ph.task.run names ph.held ph.machine = .ok vs m) :
      Passes names ph ⟨vs ++ ph.held, m⟩
  | failed {ph e m} (run : ph.task.run names ph.held ph.machine = .error e m) :
      Passes names ph ⟨ph.held, m⟩
  | inside {ph part pt} (calls : Calls names ph part) (passes : Passes names part pt) :
      Passes names ph pt

end Phase

/-! ### Nothing in between -/

/-- One change of a machine by a primitive run, or none. -/
inductive Machine.Moves (m : Machine) : Machine → Prop
  | stay : Moves m m
  | alloc (body : Body) : Moves m { m with store := (m.store.alloc body).2 }
  | define (name : Name) (b : Binding) : Moves m { m with scopes := m.scopes.define name b }
  | write {held new : List Value} {w : Write} {m' : Machine} (wrote : Run.Wrote held new w m m') :
      Moves m m'
  | leave : Moves m { m with scopes := m.scopes.tail }

namespace Run

variable {α β : Type} {names : NameTable} {held : List Value} {m m' : Machine} {ph : Phase}

/-- A run that changes the machine once at most. -/
def Single (x : Run α) : Prop := ∀ m : Machine, m.Moves (Machine.after (x m))

theorem Still.single {x : Run α} (hx : Still x) : Single x := fun m => by
  rw [hx m]
  exact .stay

theorem Single.after {x : Run α} {f : α → Run β} (hx : Still x) (hf : ∀ a, Single (f a)) :
    Single (x >>= f) := by
  intro m
  rw [bind_apply]
  cases hrun : x m with
  | ok a m₁ => exact hx.ok hrun ▸ hf a m₁
  | error e m₁ => exact hx.error hrun ▸ .stay

theorem after_map (x : Run α) (g : α → β) (m : Machine) :
    Machine.after ((x >>= fun a => pure (g a)) m) = Machine.after (x m) := by
  rw [bind_apply]
  cases x m <;> rfl

theorem Single.map {x : Run α} (hx : Single x) (g : α → β) :
    Single (x >>= fun a => pure (g a)) := fun m => by
  rw [after_map]
  exact hx m

/-- A run that writes when it ends well, and leaves the machine alone when it fails. -/
theorem Guarded.single {x : Run α} (hx : Guarded x)
    (hwrote : ∀ m a m', x m = .ok a m' → ∃ held new w, Wrote held new w m m') : Single x := by
  intro m
  cases hrun : x m with
  | ok a m₁ =>
      obtain ⟨held, new, w, hw⟩ := hwrote m a m₁ hrun
      exact .write hw
  | error e m₁ =>
      cases hx m e m₁ hrun
      exact .stay

theorem single_writePlace {p : Place} {v : Value} {span : Span} :
    Single (writePlace names held p v span) :=
  guarded_writePlace.single fun _ _ _ h => ⟨_, _, _, writePlace_ok h⟩

theorem single_mapSet {p : Place} {k : String} {v : Value} {span : Span} :
    Single (mapSet names held p k v span) :=
  guarded_mapSet.single fun _ _ _ h => ⟨_, _, _, (mapSet_ok h).1⟩

theorem single_mapDelete {p : Place} {k : String} {span : Span} :
    Single (mapDelete names held p k span) :=
  guarded_mapDelete.single fun _ _ _ h => ⟨_, _, _, (mapDelete_ok h).1⟩

theorem single_alloc (body : Body) : Single (alloc body) := fun _ => .alloc body

theorem single_define (name : Name) (v : Value) (assignable : Bool) :
    Single (define name v assignable) := fun _ => .define name ⟨v, assignable⟩

/-- The machine where the phase begins, or where a part of it ends. -/
def Known (names : NameTable) (ph : Phase) (m : Machine) : Prop :=
  m = ph.machine ∨ ∃ part, Phase.Calls names ph part ∧
    m = Machine.after (part.task.run names part.held part.machine)

/-- The run ends one change at most after a machine that is known. -/
def Ends (names : NameTable) (ph : Phase) (x : Run α) (m : Machine) : Prop :=
  ∃ m₀, Known names ph m₀ ∧ m₀.Moves (Machine.after (x m))

theorem Single.ends {x : Run α} (hx : Single x) (hm : Known names ph m) : Ends names ph x m :=
  ⟨m, hm, hx m⟩

theorem Ends.part {x : Run α} {f : α → Run β} {part : Phase} (hcalls : Phase.Calls names ph part)
    (hx : Machine.after (x m) = Machine.after (part.task.run names part.held part.machine))
    (hf : ∀ a m', x m = .ok a m' → Known names ph m' → Ends names ph (f a) m') :
    Ends names ph (x >>= f) m := by
  have hknown : Known names ph (Machine.after (x m)) := .inr ⟨part, hcalls, hx⟩
  rw [Ends, bind_apply]
  cases hrun : x m with
  | ok a m₁ =>
      rw [hrun] at hknown
      exact hf a m₁ hrun hknown
  | error e m₁ =>
      rw [hrun] at hknown
      exact ⟨m₁, hknown, .stay⟩

theorem Ends.last {x : Run α} {part : Phase} (hcalls : Phase.Calls names ph part)
    (hx : Machine.after (x m) = Machine.after (part.task.run names part.held part.machine)) :
    Ends names ph x m :=
  ⟨_, .inr ⟨part, hcalls, hx⟩, .stay⟩

theorem ends_keyed (held : List Value) (base index : Expr) (m : Machine) :
    Ends names ⟨.keyed base index, held, m⟩ (keyed names held base index) m := by
  refine .part .keyedBase (after_map _ _ _).symm fun p m₁ hp _ => ?_
  refine .part (.keyedIndex hp) (after_map _ _ _).symm fun v m₂ _ hm₂ => ?_
  exact Single.ends (.map (still_key _ _).single _) hm₂

theorem ends_pure (a : α) (hm : Known names ph m) : Ends names ph (pure a : Run α) m :=
  (still_pure a).single.ends hm

section Cases

variable {site site' : Site} {base index left right target value : Expr} {prop : Name}

theorem ends_index (held : List Value) (m : Machine) :
    Ends names ⟨.eval (.index site base index), held, m⟩ (eval names held (.index site base index))
      m := by
  rw [eval]
  refine .part .indexBase (after_map _ _ _).symm fun v m₁ hv _ => ?_
  refine .part (.indexKey hv) (after_map _ _ _).symm fun k m₂ _ hm₂ => ?_
  exact Single.ends (.after (still_key _ _) fun k => (still_property _ _ _).single) hm₂

theorem ends_set (hset : names.lookup prop = "set") (held : List Value) (m : Machine) :
    Ends names ⟨.eval (.call site (.member site' base prop) [index, value]), held, m⟩
      (eval names held (.call site (.member site' base prop) [index, value])) m := by
  rw [eval_set hset]
  refine .part (.setKey hset) (after_map _ _ _).symm fun a m₁ ha _ => ?_
  exact .part (.setValue hset ha) (after_map _ _ _).symm fun v m₂ _ hm₂ => single_mapSet.ends hm₂

theorem ends_method {args : List Expr} (hreads : ReadsOnly names prop args) (held : List Value)
    (m : Machine) :
    Ends names ⟨.eval (.call site (.member site' base prop) args), held, m⟩
      (eval names held (.call site (.member site' base prop) args)) m := by
  rw [eval_method hreads]
  refine .part (.receiver hreads.1 hreads.2) (after_map _ _ _).symm fun receiver m₁ hv _ => ?_
  exact .part (.args hreads.1 hreads.2 hv) rfl fun vs m₂ _ hm₂ =>
    (still_method _ _ _ _).single.ends hm₂

theorem ends_assign {op : AssignOp} (held : List Value) (m : Machine) :
    Ends names ⟨.eval (.assign site op target value), held, m⟩
      (eval names held (.assign site op target value)) m := by
  rw [eval]
  refine .part .assignTarget (after_map _ _ _).symm fun p m₁ hp _ => ?_
  refine .part (.assignValue hp) (after_map _ _ _).symm fun v m₂ _ hm₂ => ?_
  cases op with
  | plain => exact Single.ends (single_writePlace.map fun _ => v) hm₂
  | compound op =>
      exact Single.ends (.after (still_readPlace _ _) fun old => .after still_get fun m =>
        single_writePlace.map fun _ => m.store.binary op old v) hm₂

theorem ends_step {op : StepOp} {fixity : Fixity} (held : List Value) (m : Machine) :
    Ends names ⟨.eval (.step site op fixity target), held, m⟩
      (eval names held (.step site op fixity target)) m := by
  rw [eval]
  refine .part .stepTarget (after_map _ _ _).symm fun p m₁ _ hm₁ => ?_
  exact Single.ends (.after (still_readPlace _ _) fun v => .after still_get fun m =>
    single_writePlace.map fun _ => _) hm₁

theorem ends_binary {op : BinaryOp} (held : List Value) (m : Machine) :
    Ends names ⟨.eval (.binary site op left right), held, m⟩
      (eval names held (.binary site op left right)) m := by
  rw [eval]
  refine .part .binaryLeft (after_map _ _ _).symm fun v m₁ hv _ => ?_
  refine .part (.binaryRight hv) (after_map _ _ _).symm fun w m₂ _ hm₂ => ?_
  exact Single.ends (.after still_get fun _ => (still_pure _).single) hm₂

end Cases

theorem ends_eval :
    (∀ held e m, Ends names ⟨.eval e, held, m⟩ (eval names held e) m) ∧
    (∀ held fields es m, Ends names ⟨.evalEntries fields es, held, m⟩
      (evalEntries names held fields es) m) ∧
    (∀ held es m, Ends names ⟨.evalList es, held, m⟩ (evalList names held es) m) ∧
    ∀ held e m, Ends names ⟨.place e, held, m⟩ (place names held e) m := by
  -- After its last part a construct changes the machine once at most.
  apply eval_induct names
  case literal =>
    intro held e a h m
    rw [eval_literal h]
    exact ends_pure _ (.inl rfl)
  case ident =>
    intro held site name m
    rw [eval]
    exact (still_lookup _ _ _).single.ends (.inl rfl)
  case member =>
    intro held site base prop _ m
    rw [eval]
    exact .part .member (after_map _ _ _).symm fun v m₁ _ hm₁ =>
      (still_property _ _ _).single.ends hm₁
  case index => exact fun _ _ => ends_index _
  case set => exact fun hset _ _ _ => ends_set hset _
  case delete =>
    intro held site site' base prop index hdelete _ _ m
    rw [eval_delete hdelete]
    exact .part (.deleteKey hdelete) (after_map _ _ _).symm fun a m₁ _ hm₁ =>
      single_mapDelete.ends hm₁
  case method => exact fun hreads _ _ => ends_method hreads _
  case notCallable =>
    intro held site callee args h m
    rw [h]
    exact (still_fail _ _).single.ends (.inl rfl)
  case assign => exact fun _ _ => ends_assign _
  case step => exact fun _ => ends_step _
  case binary => exact fun _ _ => ends_binary _
  case unary =>
    intro held site op operand _ m
    rw [eval]
    refine .part .unary (after_map _ _ _).symm fun v m₁ _ hm₁ => ?_
    exact Single.ends (.after still_get fun _ => (still_pure _).single) hm₁
  case array =>
    intro held site items _ m
    rw [eval]
    exact .part .array rfl fun vs m₁ _ hm₁ => (single_alloc _).ends hm₁
  case object =>
    intro held site entries _ m
    rw [eval]
    exact .part .object (after_map _ _ _).symm fun fields m₁ _ hm₁ => (single_alloc _).ends hm₁
  case root =>
    intro held site name m
    rw [place]
    exact ends_pure _ (.inl rfl)
  case field =>
    intro held site base prop _ m
    rw [place]
    exact .part .placeMember (after_map _ _ _).symm fun p m₁ _ => ends_pure _
  case item =>
    intro held site base index _ _ m
    rw [place_index]
    exact .part .placeIndex (after_map _ _ _).symm fun a m₁ _ => ends_pure _
  case entry =>
    intro held site site' base prop index hget _ _ m
    rw [place_get hget]
    exact .part (.placeEntry hget) (after_map _ _ _).symm fun a m₁ _ => ends_pure _
  case notAPlace =>
    intro held e h m
    rw [h]
    exact (still_fail _ _).single.ends (.inl rfl)
  case nil =>
    intro held m
    rw [evalList]
    exact ends_pure _ (.inl rfl)
  case cons =>
    intro held e es _ _ m
    rw [evalList]
    refine .part .head (after_map _ _ _).symm fun v m₁ hv _ => ?_
    exact .part (.tail hv) rfl fun vs m₂ _ => ends_pure _
  case noEntries =>
    intro held fields m
    rw [evalEntries]
    exact ends_pure _ (.inl rfl)
  case addEntry =>
    intro held fields name span value rest _ _ m
    rw [evalEntries]
    exact .part .entry (after_map _ _ _).symm fun v m₁ hv _ =>
      .last (.entries hv) (after_map _ _ _).symm

theorem ends_inScope {body : List Stmt}
    (hcalls : Phase.Calls names ph ⟨.execList body, held, { m with scopes := [] :: m.scopes }⟩) :
    Ends names ph (inScope (execList names held body)) m := by
  refine ⟨_, .inr ⟨_, hcalls, (after_map _ _ _).symm⟩, ?_⟩
  rw [inScope]
  cases execList names held body { m with scopes := [] :: m.scopes } with
  | ok flow m₁ => exact .leave
  | error e m₁ => exact .leave

theorem ends_exec (held : List Value) (s : Stmt) (m : Machine) :
    Ends names ⟨.exec s, held, m⟩ (exec names held s) m := by
  cases s with
  | expr span value =>
      rw [exec]
      exact .part .expr (after_map _ _ _).symm fun v m₁ _ => ends_pure _
  | declare span name assignable initial =>
      cases initial with
      | none =>
          simp only [exec, pure_bind]
          exact Single.ends ((single_define name .undefined assignable).map fun _ => _) (.inl rfl)
      | some e =>
          simp only [exec]
          exact .part .declare (after_map _ _ _).symm fun v m₁ _ hm₁ =>
            Single.ends ((single_define name v assignable).map fun _ => _) hm₁
  | ret span value =>
      cases value with
      | none => exact ends_pure _ (.inl rfl)
      | some e =>
          simp only [exec]
          exact .part .ret (after_map _ _ _).symm fun v m₁ _ => ends_pure _
  | block span start body =>
      rw [exec]
      exact ends_inScope .block
  | empty span =>
      rw [exec]
      exact ends_pure _ (.inl rfl)

theorem ends_execList (held : List Value) (ss : List Stmt) (m : Machine) :
    Ends names ⟨.execList ss, held, m⟩ (execList names held ss) m := by
  cases ss with
  | nil =>
      rw [execList]
      exact (still_pure _).single.ends (.inl rfl)
  | cons s rest =>
      rw [execList]
      refine .part .first (after_map _ _ _).symm fun flow m₁ hflow hm₁ => ?_
      cases flow with
      | returned => exact (still_pure _).single.ends hm₁
      | next => exact .last (.next hflow) (after_map _ _ _).symm

theorem ends_execBody (held : List Value) (body : ProcedureBody) (m : Machine) :
    Ends names ⟨.execBody body, held, m⟩ (execBody names held body) m := by
  cases body with
  | expr value =>
      rw [execBody]
      exact .part .bodyExpr (after_map _ _ _).symm fun v m₁ _ hm₁ =>
        (still_pure _).single.ends hm₁
  | block start body =>
      rw [execBody]
      exact ends_inScope .bodyBlock

end Run

/-- A phase ends one change at most after it begins or after one of its parts ends. So the points of
`Passes` are enough: an assertion that holds at all of them, as `Invariant.passes` gives it, holds of
every machine that a run has, and not only of those at chosen moments. -/
theorem Phase.ends (names : NameTable) (ph : Phase) :
    ∃ m, Run.Known names ph m ∧
      m.Moves (Machine.after (ph.task.run names ph.held ph.machine)) := by
  obtain ⟨t, held, m⟩ := ph
  cases t with
  | eval e =>
      simp only [Task.run, Run.after_map]
      exact Run.ends_eval.1 held e m
  | evalList es => exact Run.ends_eval.2.2.1 held es m
  | evalEntries fields es =>
      simp only [Task.run, Run.after_map]
      exact Run.ends_eval.2.1 held fields es m
  | place e =>
      simp only [Task.run, Run.after_map]
      exact Run.ends_eval.2.2.2 held e m
  | keyed base index =>
      simp only [Task.run, Run.after_map]
      exact Run.ends_keyed held base index m
  | exec s =>
      simp only [Task.run, Run.after_map]
      exact Run.ends_exec held s m
  | execList ss =>
      simp only [Task.run, Run.after_map]
      exact Run.ends_execList held ss m
  | execBody body =>
      simp only [Task.run, Run.after_map]
      exact Run.ends_execBody held body m

namespace Run

variable {kept held : List Value} {I : List Value → Machine → Prop} {names : NameTable}
  {m m' : Machine} {e : Expr} {v : Value}

/-! ### Invariants over single phrases -/

theorem ledger_free (m : Machine) : Ledger .free m.scopes.length [] m := by
  refine ⟨rfl, List.nil_suffix, ?_⟩
  induction m.writes with
  | nil => trivial
  | cons w writes ih => exact ⟨trivial, ih⟩

/-- Without a policy the ledger does not matter. -/
theorem ensures_free {α : Type} {x : Run α} {vs ws : List Value} {Q : α → List Value}
    (h : ∀ n, Ensures (At .free I n [] vs) x (fun a => At .free I n [] (Q a)) (At .free I n [] ws)) :
    Ensures (I vs) x (fun a => I (Q a)) (I ws) :=
  .of_eq fun m hm => by
    refine (h m.scopes.length).mono ?_ (fun _ _ h => h.1) fun _ h => h.1
    rintro m' rfl
    exact ⟨hm, ledger_free m'⟩

section

variable (hI : Invariant .free kept 0 I) (hkept : kept ⊆ held)

include hI hkept

theorem Invariant.free_eval (e : Expr) :
    Ensures (I held) (eval names held e) (fun v => I (v :: held)) (I held) :=
  ensures_free fun _ => hI.ensures_eval (enforced_free names I) hkept trivial

theorem Invariant.free_place (e : Expr) :
    Ensures (I held) (place names held e) (fun _ => I held) (I held) :=
  ensures_free fun n => (hI.eval_all (enforced_free names I)).2.2.2 held e
    (fun _ _ => trivial) hkept n []

theorem Invariant.free_keyed (base index : Expr) :
    Ensures (I held) (keyed names held base index) (fun _ => I held) (I held) :=
  ensures_free fun _ => hI.ensures_keyed ((hI.eval_all (enforced_free names I)).2.2.2 held base)
    ((hI.eval_all (enforced_free names I)).1 held index) (fun _ _ => trivial) trivial hkept

theorem Invariant.free_exec (s : Stmt) :
    Ensures (I held) (exec names held s) (fun _ => I held) (I held) :=
  ensures_free fun n => (hI.exec_all (enforced_free names I) hkept).1 s
    (Policy.free_allows.1 s) n (Nat.zero_le n)

/-- What a task hands on joins the values at hand. -/
theorem Invariant.free_run (t : Task) :
    Ensures (I (t.given ++ held)) (t.run names held) (fun vs => I (vs ++ held)) (I held) := by
  have hall := hI.eval_all (enforced_free names I)
  cases t with
  | eval e => exact (hI.free_eval hkept e).bind fun v => .pure fun _ h => h
  | evalList es =>
      exact ensures_free fun n => hall.2.2.1 held es (fun _ _ => trivial) hkept n []
  | evalEntries fields entries =>
      have hrun := ensures_free fun n =>
        hall.2.1 held fields entries (fun _ _ => trivial) hkept n []
      exact hrun.bind fun fields => .pure fun _ h => h
  | place e => exact (hI.free_place hkept e).bind fun p => .pure fun _ h => h
  | keyed base index => exact (hI.free_keyed hkept base index).bind fun a => .pure fun _ h => h
  | exec s => exact (hI.free_exec hkept s).bind fun flow => .pure fun _ h => h
  | execList ss =>
      have hrun := ensures_free fun n => (hI.exec_all (enforced_free names I) hkept).2 ss
        (Policy.free_allows.2 ss) n (Nat.zero_le n)
      exact hrun.bind fun flow => .pure fun _ h => h
  | execBody body =>
      have hrun := ensures_free fun n => hI.ensures_execBody (enforced_free names I) hkept
        (Policy.free_allowsBody body) (Nat.zero_le n)
      exact hrun.bind fun flow => .pure fun _ h => h

end

/-! ### Invariants over runs -/

/-- An invariant that holds where a phase begins holds where each of its parts begins. -/
theorem Invariant.calls (hI : Invariant .free kept 0 I) {ph part : Phase}
    (h : Phase.Calls names ph part) (hkept : kept ⊆ ph.held)
    (hph : I (ph.task.given ++ ph.held) ph.machine) :
    kept ⊆ part.held ∧ I (part.task.given ++ part.held) part.machine := by
  have hcons : ∀ {held : List Value} (v : Value), kept ⊆ held → kept ⊆ v :: held := fun v =>
    List.subset_cons_of_subset v
  cases h with
  | member | indexBase | setKey | deleteKey | receiver | assignTarget | stepTarget | binaryLeft
  | unary | array | object | head | placeMember | placeIndex | placeEntry | keyedBase | expr
  | declare | ret | first | bodyExpr => exact ⟨hkept, hph⟩
  | indexKey hfirst | args _ _ hfirst | binaryRight hfirst | tail hfirst =>
      exact ⟨hcons _ hkept, (hI.free_eval hkept _).ok hph hfirst⟩
  | setValue _ hfirst => exact ⟨hkept, (hI.free_keyed hkept _ _).ok hph hfirst⟩
  | assignValue hfirst | keyedIndex hfirst =>
      exact ⟨hkept, (hI.free_place hkept _).ok hph hfirst⟩
  | @entry held m fields =>
      exact ⟨List.subset_append_of_subset_right fields.values hkept, hph⟩
  | @entries held m m' fields name span value rest v hfirst =>
      have hheld := List.subset_append_of_subset_right fields.values hkept
      refine ⟨hkept, hI.drop ((hI.free_eval hheld _).ok hph hfirst) (fun u hu => ?_)
        (List.subset_append_of_subset_right _ hkept)⟩
      rcases List.mem_append.mp hu with hu | hu
      · rcases Table.mem_values_insert hu with rfl | hu
        · exact List.mem_cons_self
        · exact List.mem_cons_of_mem _ (List.mem_append_left held hu)
      · exact List.mem_cons_of_mem _ (List.mem_append_right _ hu)
  | block | bodyBlock => exact ⟨hkept, hI.enter hph⟩
  | next hfirst => exact ⟨hkept, (hI.free_exec hkept _).ok hph hfirst⟩

/-- An invariant that holds where a phase begins holds at every point of its run. -/
theorem Invariant.passes (hI : Invariant .free kept 0 I) {ph : Phase} {pt : Point}
    (h : ph.Passes names pt) (hkept : kept ⊆ ph.held)
    (hph : I (ph.task.given ++ ph.held) ph.machine) :
    kept ⊆ pt.values ∧ I pt.values pt.machine := by
  induction h with
  | start => exact ⟨List.subset_append_of_subset_right _ hkept, hph⟩
  | done hrun =>
      exact ⟨List.subset_append_of_subset_right _ hkept, (hI.free_run hkept _).ok hph hrun⟩
  | failed hrun => exact ⟨hkept, (hI.free_run hkept _).error hph hrun⟩
  | inside hcalls _ ih =>
      obtain ⟨hpart, hI'⟩ := hI.calls hcalls hkept hph
      exact ih hpart hI'

end Run

def Procedure.phase (p : Procedure) (held : List Value) (captures : List (String × Value))
    (state : Value) (arg : Option Value) (st : Store) : Phase :=
  ⟨.execBody p.body, p.spareArgument arg ++ held, p.initial captures state arg st⟩

end PathCopy
