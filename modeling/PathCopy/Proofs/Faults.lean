import PathCopy.Proofs.Declared
import PathCopy.Proofs.Invariants
import PathCopy.Proofs.Refusals
import PathCopy.Update.Apply

/-!
Where a procedure fails. The analysis marks a parameter, the whole procedure or a phrase of the
body, and a run marks a phrase of the body; so these places are slices of the source, as those are
where the grammar refuses it.
-/

namespace PathCopy

/-! ### Runs -/

namespace Run

/-- If the run fails, from whatever machine, it does so at one of `places`. -/
def FailsAt {α : Type} (places : Span → Prop) (x : Run α) : Prop :=
  ∀ m e m', x m = .error e m' → places e.span

section FailsAt

variable {α β : Type} {places : Span → Prop} {span : Span} {names : NameTable}

theorem failsAt_pure (a : α) : FailsAt places (pure a : Run α) := by
  intro m e m' h
  cases h

theorem failsAt_get : FailsAt places (get : Run Machine) := by
  intro m e m' h
  cases h

theorem failsAt_modify (f : Machine → Machine) : FailsAt places (modify f : Run PUnit) := by
  intro m e m' h
  cases h

theorem failsAt_alloc (body : Body) : FailsAt places (alloc body) := by
  intro m e m' h
  cases h

theorem failsAt_fail (h : places span) (fault : EvalFault) :
    FailsAt places (fail fault span : Run α) := by
  intro m e m' hrun
  cases hrun
  exact h

theorem FailsAt.bind {x : Run α} {f : α → Run β} (hx : FailsAt places x)
    (hf : ∀ a, FailsAt places (f a)) : FailsAt places (x >>= f) := by
  intro m e m' h
  rw [bind_apply] at h
  cases hrun : x m with
  | ok a m₁ =>
      rw [hrun] at h
      exact hf a m₁ e m' h
  | error e₁ m₁ =>
      rw [hrun] at h
      obtain ⟨rfl, rfl⟩ := EStateM.Result.error.inj h
      exact hx m _ _ hrun

theorem failsAt_handles (held : List Value) : FailsAt places (handles held) :=
  failsAt_get.bind fun _ => failsAt_pure _

theorem FailsAt.inScope {x : Run α} (hx : FailsAt places x) : FailsAt places (inScope x) := by
  intro m e m' h
  rw [Run.inScope] at h
  cases hrun : x { m with scopes := [] :: m.scopes } with
  | ok a m₁ =>
      rw [hrun] at h
      cases h
  | error e₁ m₁ =>
      rw [hrun] at h
      obtain ⟨rfl, -⟩ := EStateM.Result.error.inj h
      exact hx _ _ m₁ hrun

variable (h : places span)

include h

theorem failsAt_ofWrite (x : Except WriteError α) : FailsAt places (ofWrite span x) := by
  cases x with
  | ok a => exact failsAt_pure a
  | error e => exact failsAt_fail h _

theorem failsAt_lookup (name : Name) : FailsAt places (lookup names name span) := by
  refine failsAt_get.bind fun m => ?_
  split
  · exact failsAt_pure _
  · exact failsAt_fail h _

theorem failsAt_assign (name : Name) (v : Value) : FailsAt places (assign names name v span) := by
  refine failsAt_get.bind fun m => ?_
  split
  · exact failsAt_fail h _
  · split
    · exact failsAt_modify _
    · exact failsAt_fail h _

theorem failsAt_property (v : Value) (key : String) : FailsAt places (property v key span) := by
  refine failsAt_get.bind fun m => ?_
  dsimp only
  split
  · exact failsAt_fail h _
  · exact failsAt_pure _

theorem failsAt_key (v : Value) : FailsAt places (key v span) := by
  unfold key
  split
  · exact failsAt_pure _
  · exact failsAt_get.bind fun m => failsAt_fail h _

theorem failsAt_readSteps (v : Value) (steps : List Step) :
    FailsAt places (readSteps span v steps) := by
  induction steps generalizing v with
  | nil => exact failsAt_pure v
  | cons step steps ih =>
      cases step with
      | key k => exact (failsAt_property h v k).bind ih
      | entry k => exact failsAt_get.bind fun m => ih _

theorem failsAt_readPlace (p : Place) : FailsAt places (readPlace names p span) :=
  (failsAt_lookup h p.root).bind fun v => failsAt_readSteps h v p.steps

theorem failsAt_reach (counts : Array Nat) (root : Name) (steps : List Step) :
    FailsAt places (reach names counts root steps span) :=
  (failsAt_lookup h root).bind fun _ => failsAt_get.bind fun _ => failsAt_ofWrite h _

theorem failsAt_keep (write : Write) (written : Except WriteError Store) :
    FailsAt places (keep span write written) :=
  (failsAt_ofWrite h written).bind fun _ => failsAt_modify _

theorem failsAt_writePlace (held : List Value) (p : Place) (v : Value) :
    FailsAt places (writePlace names held p v span) := by
  unfold writePlace
  split
  · exact failsAt_assign h _ v
  · exact failsAt_fail h _
  · refine (failsAt_handles _).bind fun counts => ?_
    exact (failsAt_reach h counts _ _).bind fun _ => failsAt_get.bind fun _ => failsAt_keep h _ _

theorem failsAt_reachMap (counts : Array Nat) (p : Place) (method : String) (arity : Nat) :
    FailsAt places (reachMap names counts p method arity span) := by
  refine (failsAt_reach h counts _ _).bind fun v => failsAt_get.bind fun m => ?_
  dsimp only
  split
  · exact failsAt_pure v
  · split
    · exact failsAt_fail h _
    · exact failsAt_fail h _

theorem failsAt_mapSet (held : List Value) (p : Place) (k : String) (v : Value) :
    FailsAt places (mapSet names held p k v span) := by
  refine (failsAt_handles _).bind fun counts => ?_
  refine (failsAt_reachMap h counts p _ _).bind fun map => failsAt_get.bind fun m => ?_
  exact (failsAt_keep h _ _).bind fun _ => failsAt_pure _

theorem failsAt_mapDelete (held : List Value) (p : Place) (k : String) :
    FailsAt places (mapDelete names held p k span) := by
  refine (failsAt_handles _).bind fun counts => ?_
  refine (failsAt_reachMap h counts p _ _).bind fun map => failsAt_get.bind fun m => ?_
  exact (failsAt_ofWrite h _).bind fun _ => (failsAt_modify _).bind fun _ => failsAt_pure _

theorem failsAt_method (receiver : Value) (name : String) (args : List Value) :
    FailsAt places (method receiver name args span) := by
  refine failsAt_get.bind fun m => ?_
  dsimp only
  split
  · exact (failsAt_key h _).bind fun k => failsAt_pure _
  · exact (failsAt_key h _).bind fun k => failsAt_pure _
  · split
    · exact failsAt_fail h _
    · exact failsAt_fail h _

/-! ### Expressions -/

/-- An expression fails at its own span, or at that of an expression inside it. -/
def FailsAt.Eval (places : Span → Prop) (names : NameTable) (held : List Value) (e : Expr) : Prop :=
  (Phrase.expr e).AllSpans places → FailsAt places (eval names held e)

def FailsAt.EvalEntries (places : Span → Prop) (names : NameTable) (held : List Value)
    (fields : Table Value) (es : List Property) : Prop :=
  (∀ e ∈ es, (Phrase.expr e.value).AllSpans places) →
    FailsAt places (evalEntries names held fields es)

def FailsAt.EvalList (places : Span → Prop) (names : NameTable) (held : List Value)
    (es : List Expr) : Prop :=
  (∀ e ∈ es, (Phrase.expr e).AllSpans places) → FailsAt places (evalList names held es)

def FailsAt.EvalPlace (places : Span → Prop) (names : NameTable) (held : List Value) (e : Expr) :
    Prop :=
  (Phrase.expr e).AllSpans places → FailsAt places (place names held e)

omit h

section Cases

variable {held : List Value} {site site' : Site} {e base key left right target value : Expr}
  {prop : Name} {args : List Expr}

theorem FailsAt.literal {a : Scalar} (h : e.literal? names = some a) :
    FailsAt.Eval places names held e := by
  intro _
  rw [eval_literal h]
  exact failsAt_pure _

theorem FailsAt.ident {name : Name} : FailsAt.Eval places names held (.ident site name) := by
  intro h
  rw [eval]
  exact failsAt_lookup h.self name

theorem FailsAt.member (ih : FailsAt.Eval places names held base) :
    FailsAt.Eval places names held (.member site base prop) := by
  intro h
  rw [eval]
  exact (ih (h.part (by simp [Expr.children]))).bind fun v => failsAt_property h.self v _

theorem FailsAt.index (ih : FailsAt.Eval places names held base)
    (ihindex : ∀ v, FailsAt.Eval places names (v :: held) key) :
    FailsAt.Eval places names held (.index site base key) := by
  intro h
  have hindex := h.part (c := key) (by simp [Expr.children])
  rw [eval]
  refine (ih (h.part (by simp [Expr.children]))).bind fun v => ?_
  refine (ihindex v hindex).bind fun k => ?_
  exact (failsAt_key hindex.self k).bind fun k => failsAt_property h.self v k

theorem FailsAt.keyed (ih : FailsAt.EvalPlace places names held base)
    (ihindex : FailsAt.Eval places names held key) (hbase : (Phrase.expr base).AllSpans places)
    (hindex : (Phrase.expr key).AllSpans places) :
    FailsAt places (Run.keyed names held base key) := by
  refine (ih hbase).bind fun p => (ihindex hindex).bind fun k => ?_
  exact (failsAt_key hindex.self k).bind fun k => failsAt_pure _

/-- The object of a method call and its arguments are inside the call. -/
theorem allSpans_method
    (h : (Phrase.expr (.call site (.member site' base prop) args)).AllSpans places) :
    (Phrase.expr base).AllSpans places ∧ ∀ e ∈ args, (Phrase.expr e).AllSpans places := by
  have hcallee := h.part (c := .member site' base prop) (by simp [Expr.children])
  exact ⟨hcallee.part (by simp [Expr.children]), fun e he => h.part (List.mem_cons_of_mem _ he)⟩

theorem FailsAt.set (hset : names.lookup prop = "set")
    (ih : FailsAt.EvalPlace places names held base) (ihindex : FailsAt.Eval places names held key)
    (ihvalue : FailsAt.Eval places names held value) :
    FailsAt.Eval places names held (.call site (.member site' base prop) [key, value]) := by
  intro h
  obtain ⟨hbase, hargs⟩ := allSpans_method h
  rw [eval_set hset]
  refine (FailsAt.keyed ih ihindex hbase (hargs key (by simp))).bind fun a => ?_
  exact (ihvalue (hargs value (by simp))).bind fun v => failsAt_mapSet h.self _ a.1 a.2 v

theorem FailsAt.delete (hdelete : names.lookup prop = "delete")
    (ih : FailsAt.EvalPlace places names held base)
    (ihindex : FailsAt.Eval places names held key) :
    FailsAt.Eval places names held (.call site (.member site' base prop) [key]) := by
  intro h
  obtain ⟨hbase, hargs⟩ := allSpans_method h
  rw [eval_delete hdelete]
  exact (FailsAt.keyed ih ihindex hbase (hargs key (by simp))).bind fun a =>
    failsAt_mapDelete h.self _ a.1 a.2

theorem FailsAt.method (hreads : ReadsOnly names prop args)
    (ih : FailsAt.Eval places names held base)
    (ihargs : ∀ v, FailsAt.EvalList places names (v :: held) args) :
    FailsAt.Eval places names held (.call site (.member site' base prop) args) := by
  intro h
  obtain ⟨hbase, hargs⟩ := allSpans_method h
  rw [eval_method hreads]
  refine (ih hbase).bind fun receiver => ?_
  exact (ihargs receiver hargs).bind fun vs => failsAt_method h.self receiver _ vs

theorem FailsAt.notCallable {fault : EvalFault}
    (h : ∀ us, eval names us e = Run.fail fault e.span) : FailsAt.Eval places names held e := by
  intro hspans
  rw [h]
  exact failsAt_fail hspans.self fault

theorem FailsAt.assign {op : AssignOp} (ih : FailsAt.EvalPlace places names held target)
    (ihvalue : FailsAt.Eval places names held value) :
    FailsAt.Eval places names held (.assign site op target value) := by
  intro h
  rw [eval]
  refine (ih (h.part (by simp [Expr.children]))).bind fun p => ?_
  refine (ihvalue (h.part (by simp [Expr.children]))).bind fun v => ?_
  have hwrite : ∀ new, FailsAt places
      (do writePlace names (v :: held) p new site.span; pure new) := fun new =>
    (failsAt_writePlace h.self _ p new).bind fun _ => failsAt_pure new
  cases op with
  | plain => exact hwrite v
  | compound op =>
      refine (failsAt_readPlace h.self p).bind fun old => failsAt_get.bind fun m => ?_
      exact hwrite (m.store.binary op old v)

theorem FailsAt.step {op : StepOp} {fixity : Fixity}
    (ih : FailsAt.EvalPlace places names held target) :
    FailsAt.Eval places names held (.step site op fixity target) := by
  intro h
  rw [eval]
  refine (ih (h.part (by simp [Expr.children]))).bind fun p => ?_
  refine (failsAt_readPlace h.self p).bind fun v => failsAt_get.bind fun m => ?_
  exact (failsAt_writePlace h.self _ p _).bind fun _ => failsAt_pure _

theorem FailsAt.binary {op : BinaryOp} (ih : FailsAt.Eval places names held left)
    (ihright : ∀ v, FailsAt.Eval places names (v :: held) right) :
    FailsAt.Eval places names held (.binary site op left right) := by
  intro h
  rw [eval]
  refine (ih (h.part (by simp [Expr.children]))).bind fun v => ?_
  refine (ihright v (h.part (by simp [Expr.children]))).bind fun w => ?_
  exact failsAt_get.bind fun m => failsAt_pure _

theorem FailsAt.unary {op : UnaryOp} (ih : FailsAt.Eval places names held e) :
    FailsAt.Eval places names held (.unary site op e) := by
  intro h
  rw [eval]
  refine (ih (h.part (by simp [Expr.children]))).bind fun v => ?_
  exact failsAt_get.bind fun m => failsAt_pure _

theorem FailsAt.array {items : List Expr} (ih : FailsAt.EvalList places names held items) :
    FailsAt.Eval places names held (.array site items) := by
  intro h
  rw [eval]
  exact (ih fun e he => h.part he).bind fun vs => failsAt_alloc _

theorem FailsAt.object {entries : List Property}
    (ih : FailsAt.EvalEntries places names held .empty entries) :
    FailsAt.Eval places names held (.object site entries) := by
  intro h
  rw [eval]
  exact (ih fun e he => h.part (List.mem_map_of_mem he)).bind fun fields => failsAt_alloc _

theorem FailsAt.root {name : Name} : FailsAt.EvalPlace places names held (.ident site name) := by
  intro _
  rw [place]
  exact failsAt_pure _

theorem FailsAt.field (ih : FailsAt.EvalPlace places names held base) :
    FailsAt.EvalPlace places names held (.member site base prop) := by
  intro h
  rw [place]
  exact (ih (h.part (by simp [Expr.children]))).bind fun p => failsAt_pure _

theorem FailsAt.item (ih : FailsAt.EvalPlace places names held base)
    (ihindex : FailsAt.Eval places names held key) :
    FailsAt.EvalPlace places names held (.index site base key) := by
  intro h
  rw [place_index]
  exact (FailsAt.keyed ih ihindex (h.part (by simp [Expr.children]))
    (h.part (by simp [Expr.children]))).bind fun a => failsAt_pure _

theorem FailsAt.entry (hget : names.lookup prop = "get")
    (ih : FailsAt.EvalPlace places names held base)
    (ihindex : FailsAt.Eval places names held key) :
    FailsAt.EvalPlace places names held (.call site (.member site' base prop) [key]) := by
  intro h
  obtain ⟨hbase, hargs⟩ := allSpans_method h
  rw [place_get hget]
  exact (FailsAt.keyed ih ihindex hbase (hargs key (by simp))).bind fun a => failsAt_pure _

theorem FailsAt.notAPlace {fault : EvalFault}
    (h : ∀ us, place names us e = Run.fail fault e.span) :
    FailsAt.EvalPlace places names held e := by
  intro hspans
  rw [h]
  exact failsAt_fail hspans.self fault

theorem FailsAt.nil : FailsAt.EvalList places names held [] := by
  intro _
  rw [evalList]
  exact failsAt_pure _

theorem FailsAt.cons {es : List Expr} (ih : FailsAt.Eval places names held e)
    (ihes : ∀ v, FailsAt.EvalList places names (v :: held) es) :
    FailsAt.EvalList places names held (e :: es) := by
  intro h
  rw [evalList]
  obtain ⟨he, hes⟩ := List.forall_mem_cons.mp h
  exact (ih he).bind fun v => (ihes v hes).bind fun vs => failsAt_pure _

theorem FailsAt.noEntries {fields : Table Value} :
    FailsAt.EvalEntries places names held fields [] := by
  intro _
  rw [evalEntries]
  exact failsAt_pure _

theorem FailsAt.addEntry {fields : Table Value} {name : Name} {rest : List Property}
    (ih : FailsAt.Eval places names (fields.values ++ held) value)
    (ihrest : ∀ v, FailsAt.EvalEntries places names held
      (fields.insert (names.lookup name) v) rest) :
    FailsAt.EvalEntries places names held fields (.entry name span value :: rest) := by
  intro h
  rw [evalEntries]
  obtain ⟨he, hes⟩ := List.forall_mem_cons.mp h
  exact (ih he).bind fun v => ihrest v hes

end Cases

theorem eval_failsAt :
    (∀ held e, FailsAt.Eval places names held e) ∧
    (∀ held fields es, FailsAt.EvalEntries places names held fields es) ∧
    (∀ held es, FailsAt.EvalList places names held es) ∧
    ∀ held e, FailsAt.EvalPlace places names held e := by
  apply eval_induct names
  case literal => exact .literal
  case ident => exact .ident
  case member => exact .member
  case index => exact .index
  case set => exact .set
  case delete => exact .delete
  case method => exact .method
  case notCallable => exact .notCallable
  case assign => exact .assign
  case step => exact .step
  case binary => exact .binary
  case unary => exact .unary
  case array => exact .array
  case object => exact .object
  case root => exact .root
  case field => exact .field
  case item => exact .item
  case entry => exact .entry
  case notAPlace => exact .notAPlace
  case nil => exact .nil
  case cons => exact .cons
  case noEntries => exact .noEntries
  case addEntry => exact .addEntry

/-! ### Statements -/

theorem exec_failsAt (held : List Value) :
    (∀ s : Stmt, (Phrase.stmt s).AllSpans places → FailsAt places (exec names held s)) ∧
    ∀ ss : List Stmt, (∀ s ∈ ss, (Phrase.stmt s).AllSpans places) →
      FailsAt places (execList names held ss) := by
  apply stmts_induct
  case expr =>
    intro span value h
    rw [exec]
    have hvalue := h.child (c := .expr value) (by simp [Phrase.children, Stmt.children])
    exact (eval_failsAt.1 held value hvalue).bind fun _ => failsAt_pure _
  case declare =>
    intro span name assignable initial h
    cases initial with
    | some e =>
        simp only [exec]
        have hvalue := h.child (c := .expr e) (by simp [Phrase.children, Stmt.children])
        refine (eval_failsAt.1 held e hvalue).bind fun v => ?_
        exact (failsAt_modify _).bind fun _ => failsAt_pure _
    | none =>
        simp only [exec, pure_bind]
        exact (failsAt_modify _).bind fun _ => failsAt_pure _
  case ret =>
    intro span value h
    cases value with
    | some e =>
        simp only [exec]
        have hvalue := h.child (c := .expr e) (by simp [Phrase.children, Stmt.children])
        exact (eval_failsAt.1 held e hvalue).bind fun _ => failsAt_pure _
    | none =>
        rw [exec]
        exact failsAt_pure _
  case block =>
    intro span first body ih h
    rw [exec]
    exact (ih fun s hs => h.child (List.mem_map_of_mem hs)).inScope
  case empty =>
    intro span _
    rw [exec]
    exact failsAt_pure _
  case nil =>
    intro _
    rw [execList]
    exact failsAt_pure _
  case cons =>
    intro s rest ih ihrest h
    rw [execList]
    obtain ⟨hs, hrest⟩ := List.forall_mem_cons.mp h
    refine (ih hs).bind fun flow => ?_
    cases flow with
    | returned => exact failsAt_pure _
    | next => exact ihrest hrest

theorem execBody_failsAt (held : List Value) {body : ProcedureBody}
    (hbody : ∀ q ∈ body.roots, q.AllSpans places) : FailsAt places (execBody names held body) := by
  cases body with
  | expr value =>
      rw [execBody]
      have hvalue := hbody (.expr value) List.mem_cons_self
      exact (eval_failsAt.1 held value hvalue).bind fun _ => failsAt_pure _
  | block first body =>
      rw [execBody]
      exact ((exec_failsAt held).2 body fun s hs => hbody _ (List.mem_map_of_mem hs)).inScope

end FailsAt

end Run

namespace Procedure

variable {p : Procedure} {places : Span → Prop}

theorem AllSpans.of_mem (h : p.AllSpans places) {q : Phrase} (hq : q ∈ p.phrases) :
    q.AllSpans places := by
  rw [phrases, ProcedureBody.phrases_eq] at hq
  obtain ⟨root, hroot, hq⟩ := List.mem_flatMap.mp hq
  exact (h.body root hroot).mem hq

theorem run_error_place (h : p.AllSpans places) {held : List Value}
    {captures : List (String × Value)} {state : Value} {arg : Option Value} {st st' : Store}
    {e : EvalError} (hrun : p.run held captures state arg st = (.error e, st')) :
    places e.span := by
  unfold run at hrun
  split at hrun
  · cases hrun
  · split at hrun
    · cases hrun
    · rename_i e' m hexecute
      cases hrun
      exact Run.execBody_failsAt _ h.body _ _ _ hexecute

/-! ### The analysis -/

section Analysis

variable {roles : Roles} {e : Expr} {error : AnalysisError}

/-- A link that stops a write is marked at its call, at its key, or at a chain inside it. -/
theorem Stops.place (h : (Phrase.expr e).AllSpans places) {link : Link} (hlink : link ∈ e.links)
    (hstops : p.Stops roles link error) : places error.span := by
  -- The link is the last one of the chain or one of its base, which is a part of the expression.
  induction e using Expr.links.induct with
  | case1 site base property ih =>
      rw [Expr.links, List.mem_append, List.mem_singleton] at hlink
      rcases hlink with hlink | rfl
      · exact ih (h.part (by simp [Expr.children])) hlink
      · cases hstops
  | case2 site base key ih =>
      rw [Expr.links, List.mem_append, List.mem_singleton] at hlink
      rcases hlink with hlink | rfl
      · exact ih (h.part (by simp [Expr.children])) hlink
      · cases hstops with
        | key _ => exact (h.part (c := key) (by simp [Expr.children])).self
  | case3 site site' base property args ih =>
      have hcallee := h.part (c := .member site' base property) (by simp [Expr.children])
      rw [Expr.links, List.mem_append, List.mem_singleton] at hlink
      rcases hlink with hlink | rfl
      · exact ih (hcallee.part (by simp [Expr.children])) hlink
      · cases hstops with
        | @get _ key _ _ _ => exact (h.part (c := key) (by simp [Expr.children])).self
        | method _ _ => exact h.self
  | case4 site callee args hcallee ih =>
      rw [Expr.links, List.mem_append, List.mem_singleton] at hlink
      · rcases hlink with hlink | rfl
        · exact ih (h.part (by simp [Expr.children])) hlink
        · cases hstops with
          | call _ _ _ => exact h.self
      · exact hcallee
  | case5 t hmember hindex hmethod hcall =>
      cases t with
      | member site base property => exact absurd rfl (hmember site base property)
      | index site base key => exact absurd rfl (hindex site base key)
      | call site callee args => exact absurd rfl (hcall site callee args)
      | _ => cases hlink

theorem Strays.place (h : (Phrase.expr e).AllSpans places) (hstrays : p.Strays roles e error) :
    places error.span := by
  obtain ⟨-, before, link, after, hlinks, -, hstops⟩ := hstrays
  exact hstops.place h (by simp [hlinks])

/-- A phrase that offends is marked itself, or something inside it is. -/
theorem Offends.place {q : Phrase} (h : q.AllSpans places) (hoffends : p.Offends roles q error) :
    places error.span := by
  cases hoffends with
  | target hstrays | operand hstrays | callee _ hstrays =>
      exact hstrays.place (h.part (by simp [Expr.children]))
  | receiver hstrays =>
      exact hstrays.place ((h.part List.mem_cons_self).part (by simp [Expr.children]))
  | @key _ _ _ key => exact (h.part (c := key) (by simp [Expr.children])).self
  | compound | state | step | method | call | declare => exact h.self

theorem writePaths_error_place (h : p.AllSpans places) (herror : p.writePaths = .error error) :
    places error.span := by
  rcases writePaths_error_iff.mp herror with hparams | ⟨roles, before, q, after, -, hq, -, hoffends⟩
  · cases hparams with
    | none _ => exact h.whole
    | twice hp _ | many hp => exact h.params _ (by simp [hp])
  · exact hoffends.place (h.of_mem (by simp [hq]))

end Analysis

end Procedure

/-! ### Updates -/

section Updates

variable {source : String} {w w' : Workspace} {e : UpdateError}

theorem Compiled.ofSource_ok {serial : Nat} {c : Compiled}
    (h : Compiled.ofSource serial source = .ok c) :
    Procedure.parse source = .ok c.procedure ∧ c.procedure.writePaths = .ok c.paths := by
  unfold ofSource at h
  split at h
  · cases h
  · rename_i hparse
    split at h
    · cases h
    · rename_i hpaths
      cases h
      exact ⟨hparse, hpaths⟩

theorem Workspace.ofSource_of_compile {c : Compiled} (h : w.compile source = (.ok c, w')) :
    Compiled.ofSource c.serial source = .ok c := by
  unfold compile at h
  split at h
  · rename_i hcompile
    cases h
    exact PathCache.ofSource_of_compile hcompile
  · cases h

variable (hshort : utf8Length source.toList < 2 ^ 32)

include hshort

theorem Workspace.compile_error_isSlice (h : w.compile source = (.error e, w')) :
    ∀ span ∈ e.span?, span.IsSlice source.toList := by
  unfold compile at h
  split at h
  · cases h
  · rename_i error cache hcompile
    cases h
    obtain ⟨serial, hsource⟩ := PathCache.ofSource_of_compile_error hcompile
    unfold Compiled.ofSource at hsource
    split at hsource
    · rename_i hparse
      cases hsource
      rintro _ ⟨⟩
      exact Procedure.parse_error_isSlice hshort hparse
    · rename_i procedure hparse
      split at hsource
      · rename_i hpaths
        cases hsource
        rintro _ ⟨⟩
        exact Procedure.writePaths_error_place (Procedure.parse_allSpans hshort hparse) hpaths
      · cases hsource

theorem Update.apply_error_isSlice {u : Update} (hu : u.source = source) {root : Value}
    {held : List Value} (h : u.apply root held w = (.error e, w')) :
    ∀ span ∈ e.span?, span.IsSlice source.toList := by
  subst hu
  unfold apply at h
  split at h
  · rename_i error w₁ hcompile
    cases h
    exact Workspace.compile_error_isSlice hshort hcompile
  · rename_i compiled w₁ hcompile
    split at h
    · cases h
      exact nofun
    split at h
    · cases h
      exact nofun
    · rename_i paths _
      unfold applyPaths at h
      dsimp only at h
      split at h
      · rename_i error hrun
        cases h
        rintro _ ⟨⟩
        obtain ⟨hparse, -⟩ := Compiled.ofSource_ok (Workspace.ofSource_of_compile hcompile)
        exact Procedure.run_error_place (Procedure.parse_allSpans hshort hparse) (Prod.ext hrun rfl)
      · cases h

/-- Every place that a failure names is a slice of the source: whether lexing, parsing or analysing
the text fails, or a run of the procedure, alone or in an update. -/
theorem failures_isSlice :
    (∀ e, Procedure.parse source = .error e → e.span.IsSlice source.toList) ∧
    (∀ p, Procedure.parse source = .ok p →
      (∀ e, p.writePaths = .error e → e.span.IsSlice source.toList) ∧
      ∀ held captures state arg st e st', p.run held captures state arg st = (.error e, st') →
        e.span.IsSlice source.toList) ∧
    (∀ (w w' : Workspace) (e : UpdateError), w.compile source = (.error e, w') →
      ∀ span ∈ e.span?, span.IsSlice source.toList) ∧
    ∀ (u : Update) (root : Value) (held : List Value) (w w' : Workspace) (e : UpdateError),
      u.source = source → u.apply root held w = (.error e, w') →
        ∀ span ∈ e.span?, span.IsSlice source.toList := by
  refine ⟨fun e => Procedure.parse_error_isSlice hshort, fun p hp => ?_,
    fun w w' e => Workspace.compile_error_isSlice hshort,
    fun u root held w w' e hu => Update.apply_error_isSlice hshort hu⟩
  have hspans := Procedure.parse_allSpans hshort hp
  exact ⟨fun e => Procedure.writePaths_error_place hspans,
    fun held captures state arg st e st' => Procedure.run_error_place hspans⟩

end Updates

def Update.unbound : Update := ⟨"s => s[\"é\"] = x", none, [], .unset⟩

def Workspace.bare : Workspace := .fresh none ⟨#[⟨false, .list []⟩]⟩

theorem failures_isSlice_unbound : utf8Length Update.unbound.source.toList < 2 ^ 32 ∧
    ∃ e w', Update.unbound.apply (.node ⟨0⟩) [] .bare = (.error (.eval e), w') ∧
      e.span = ⟨15, 16⟩ ∧ e.span.IsSlice Update.unbound.source.toList := by
  have hshort : utf8Length Update.unbound.source.toList < 2 ^ 32 := by decide +kernel
  have hfails : (Update.unbound.apply (.node ⟨0⟩) [] .bare).1.map (fun _ => ()) =
      .error (.eval ⟨.undefinedVariable "x", ⟨15, 16⟩⟩) := by
    decide +kernel
  have happly : Update.unbound.apply (.node ⟨0⟩) [] .bare =
      (.error (.eval ⟨.undefinedVariable "x", ⟨15, 16⟩⟩),
        (Update.unbound.apply (.node ⟨0⟩) [] .bare).2) :=
    Prod.ext (except_map_error hfails) rfl
  have hslice := (failures_isSlice hshort).2.2.2 _ _ _ _ _ _ rfl happly
  exact ⟨hshort, _, _, happly, rfl, hslice _ rfl⟩

end PathCopy
