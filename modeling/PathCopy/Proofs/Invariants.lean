import PathCopy.Proofs.Evaluation

/-!
Invariants of runs. What is asserted of the values at hand and of the machine holds throughout the
run of a procedure if every single thing that a run does keeps it: taking a scalar, a child or the
value of a variable, letting go of a value, making a node, binding a name, writing, and entering and
leaving a scope.
-/

namespace PathCopy

namespace Scopes

@[simp] theorem length_define (ss : Scopes) (name : Name) (b : Binding) :
    (ss.define name b).length = ss.length := by
  cases ss with
  | nil => rfl
  | cons s outer => rfl

@[simp] theorem length_setValue (ss : Scopes) (name : Name) (v : Value) :
    (ss.setValue name v).length = ss.length := by
  induction ss with
  | nil => rfl
  | cons s outer ih =>
      rw [setValue]
      split
      · rfl
      · rw [List.length_cons, ih, List.length_cons]

end Scopes

/-! ### What an expression evaluates -/

/-- The expressions that are evaluated for an expression, directly or for a place in it. -/
def Expr.parts : Expr → List Expr
  | .member _ base _ => [base]
  | .index _ base key => [base, key]
  | .call _ (.member _ base _) args => base.keys ++ base :: args
  | .assign _ _ target value => target.keys ++ [value]
  | .step _ _ _ target => target.keys
  | .binary _ _ left right => [left, right]
  | .unary _ _ operand => [operand]
  | .array _ items => items
  | .object _ entries => entries.map Property.value
  | _ => []

/-- What a procedure may contain, and what is asked of a write that follows the earlier ones. -/
structure Policy where
  accept : Expr → Prop
  declare : Name → Prop
  license : List Write → Write → Prop

def Policy.free : Policy := ⟨fun _ => True, fun _ => True, fun _ _ => True⟩

/-- Every write has the license that its time asks for; the newest write comes first. -/
def Journal (license : List Write → Write → Prop) : List Write → Prop
  | [] => True
  | w :: earlier => license earlier w ∧ Journal license earlier

theorem Journal.of_append {license : List Write → Write → Prop} {later earlier : List Write}
    {w : Write} (h : Journal license (later ++ w :: earlier)) : license earlier w := by
  induction later with
  | nil => exact h.1
  | cons _ later ih => exact ih h.2

mutual

/-- A statement that contains only what the policy allows. -/
def Policy.Allows (π : Policy) : Stmt → Prop
  | .expr _ value => π.accept value
  | .declare _ name _ initial => π.declare name ∧ ∀ e, initial = some e → π.accept e
  | .ret _ value => ∀ e, value = some e → π.accept e
  | .block _ _ body => π.AllowsAll body
  | .empty _ => True

def Policy.AllowsAll (π : Policy) : List Stmt → Prop
  | [] => True
  | s :: rest => π.Allows s ∧ π.AllowsAll rest

end

def Policy.AllowsBody (π : Policy) : ProcedureBody → Prop
  | .expr value => π.accept value
  | .block _ body => π.AllowsAll body

theorem Policy.free_allows :
    (∀ s : Stmt, Policy.free.Allows s) ∧ ∀ ss : List Stmt, Policy.free.AllowsAll ss := by
  apply stmts_induct
  case expr => exact fun span value => trivial
  case declare => exact fun span name assignable initial => ⟨trivial, fun _ _ => trivial⟩
  case ret => exact fun span value _ _ => trivial
  case block => exact fun span first body ih => ih
  case empty => exact fun span => trivial
  case nil => trivial
  case cons => exact fun s rest ih ihrest => ⟨ih, ihrest⟩

theorem Policy.free_allowsBody (body : ProcedureBody) : Policy.free.AllowsBody body := by
  cases body with
  | expr value => trivial
  | block first body => exact Policy.free_allows.2 body

namespace Run

/-- An assertion about the values at hand, which always include those in `kept`, and the machine,
which has `base` scopes from the start. -/
structure Invariant (π : Policy) (kept : List Value) (base : ℕ)
    (I : List Value → Machine → Prop) : Prop where
  drop : ∀ {vs ws m}, I vs m → ws ⊆ vs → kept ⊆ ws → I ws m
  scalar : ∀ {vs m} a, I vs m → I (.scalar a :: vs) m
  child : ∀ {vs m r c}, I vs m → .node r ∈ vs → c ∈ m.store.children r → I (c :: vs) m
  lookup : ∀ {vs m name b}, I vs m → m.scopes.find? name = some b → I (b.value :: vs) m
  alloc : ∀ {vs m body}, I vs m → body.children ⊆ vs →
    I ((m.store.alloc body).1 :: vs) { m with store := (m.store.alloc body).2 }
  define : ∀ {vs m name v} assignable, I vs m → π.declare name → v ∈ vs →
    I vs { m with scopes := m.scopes.define name ⟨v, assignable⟩ }
  wrote : ∀ {vs new w m m'}, I vs m → Wrote vs new w m m' → new ⊆ vs → π.license m.writes w →
    I vs m'
  enter : ∀ {vs m}, I vs m → I vs { m with scopes := [] :: m.scopes }
  leave : ∀ {vs m}, I vs m → base < m.scopes.length → I vs { m with scopes := m.scopes.tail }

/-- A write that is licensed now and after any further writes. -/
def Pending (π : Policy) (w : Write) (m : Machine) : Prop :=
  ∀ writes, m.writes <:+ writes → π.license writes w

/-- The policy holds of the parts of what it accepts, and the evaluation of the place of a write
provides the license for it. -/
structure Enforced (π : Policy) (names : NameTable) (I : List Value → Machine → Prop) : Prop where
  parts : ∀ {e}, π.accept e → ∀ e' ∈ e.parts, π.accept e'
  assign : ∀ {site op target value}, π.accept (.assign site op target value) → ∀ held,
    Ensures (I held) (place names held target) (fun p => Pending π ⟨p.root, p.keys, .assign⟩)
      fun _ => True
  step : ∀ {site op fixity target}, π.accept (.step site op fixity target) → ∀ held,
    Ensures (I held) (place names held target) (fun p => Pending π ⟨p.root, p.keys, .assign⟩)
      fun _ => True
  set : ∀ {site site' base prop index value},
    π.accept (.call site (.member site' base prop) [index, value]) → names.lookup prop = "set" →
    ∀ held, Ensures (I held) (keyed names held base index)
      (fun a => Pending π ⟨a.1.root, a.1.keys ++ [a.2], .mapSet⟩) fun _ => True
  delete : ∀ {site site' base prop index},
    π.accept (.call site (.member site' base prop) [index]) → names.lookup prop = "delete" →
    ∀ held, Ensures (I held) (keyed names held base index)
      (fun a => Pending π ⟨a.1.root, a.1.keys ++ [a.2], .mapDelete⟩) fun _ => True

theorem enforced_free (names : NameTable) (I : List Value → Machine → Prop) :
    Enforced .free names I where
  parts _ _ _ := trivial
  assign _ _ := .always (fun _ _ _ _ => trivial) fun _ => trivial
  step _ _ := .always (fun _ _ _ _ => trivial) fun _ => trivial
  set _ _ _ := .always (fun _ _ _ _ => trivial) fun _ => trivial
  delete _ _ _ := .always (fun _ _ _ _ => trivial) fun _ => trivial

theorem Enforced.mono {π : Policy} {names : NameTable} {I J : List Value → Machine → Prop}
    (h : Enforced π names I) (hJ : ∀ {vs m}, J vs m → I vs m) : Enforced π names J where
  parts := h.parts
  assign he held := (h.assign he held).pre fun _ => hJ
  step he held := (h.step he held).pre fun _ => hJ
  set he hset held := (h.set he hset held).pre fun _ => hJ
  delete he hdelete held := (h.delete he hdelete held).pre fun _ => hJ

variable {π : Policy} {kept : List Value} {base n : ℕ} {W : List Write}
  {I : List Value → Machine → Prop} {α : Type} {names : NameTable} {held vs : List Value}
  {m m' : Machine} {v w : Value} {k : String} {span : Span} {p : Place}

theorem Wrote.length_scopes {new : List Value} {write : Write} (h : Wrote held new write m m') :
    m'.scopes.length = m.scopes.length := by
  cases h with
  | assigned => exact Scopes.length_setValue _ _ _
  | stored => rfl

theorem Wrote.writes_eq {new : List Value} {write : Write} (h : Wrote held new write m m') :
    m'.writes = write :: m.writes := by
  cases h with
  | assigned => rfl
  | stored => rfl

/-- The machine has `n` scopes, its journal goes on from `W`, and every write was licensed. -/
structure Ledger (π : Policy) (n : ℕ) (W : List Write) (m : Machine) : Prop where
  scopes : m.scopes.length = n
  since : W <:+ m.writes
  journal : Journal π.license m.writes

def At (π : Policy) (I : List Value → Machine → Prop) (n : ℕ) (W : List Write) (vs : List Value)
    (m : Machine) : Prop :=
  I vs m ∧ Ledger π n W m

section

variable (hI : Invariant π kept base I)

include hI

theorem Invariant.shrink {ws : List Value} (h : At π I n W vs m) (hsub : ws ⊆ vs)
    (hkept : kept ⊆ ws) : At π I n W ws m :=
  ⟨hI.drop h.1 hsub hkept, h.2⟩

theorem Invariant.with_scalar (h : At π I n W vs m) (a : Scalar) : At π I n W (.scalar a :: vs) m :=
  ⟨hI.scalar a h.1, h.2⟩

theorem Invariant.ensures_lookup (name : Name) (span : Span) :
    Ensures (At π I n W vs) (Run.lookup names name span) (fun v => At π I n W (v :: vs))
      (At π I n W vs) := by
  refine (still_lookup _ _ _).ensures (fun m v h hv => ?_) fun m h => h
  obtain ⟨b, hb, rfl⟩ := lookup_ok hv
  exact ⟨hI.lookup h.1 hb, h.2⟩

/-- A write that the journal so far gives license for. -/
theorem Invariant.wrote_at {new : List Value} {write : Write} (h : At π I n W vs m)
    (hwrote : Wrote vs new write m m') (hnew : new ⊆ vs)
    (hlicense : ∀ writes, W <:+ writes → π.license writes write) : At π I n W vs m' := by
  have hwrite := hlicense m.writes h.2.since
  refine ⟨hI.wrote h.1 hwrote hnew hwrite, hwrote.length_scopes.trans h.2.scopes, ?_, ?_⟩
  · rw [hwrote.writes_eq]
    exact h.2.since.trans (List.suffix_cons _ _)
  · rw [hwrote.writes_eq]
    exact ⟨hwrite, h.2.journal⟩

theorem Invariant.ensures_mapDelete (p : Place) (k : String) (span : Span)
    (hlicense : ∀ writes, W <:+ writes → π.license writes ⟨p.root, p.keys ++ [k], .mapDelete⟩) :
    Ensures (At π I n W vs) (mapDelete names vs p k span) (fun u => At π I n W (u :: vs))
      (At π I n W vs) := by
  refine guarded_mapDelete.ensures (fun m u m' h hrun => ?_) fun m h => h
  obtain ⟨hwrote, removed, rfl⟩ := mapDelete_ok hrun
  exact hI.with_scalar (hI.wrote_at h hwrote (List.nil_subset vs) hlicense) _

variable (hkept : kept ⊆ vs)

include hkept

theorem Invariant.tail (h : At π I n W (v :: vs) m) : At π I n W vs m :=
  hI.shrink h (List.subset_cons_self v vs) hkept

theorem Invariant.swap (h : At π I n W (v :: w :: vs) m) : At π I n W (v :: vs) m :=
  hI.shrink h (List.cons_subset_cons v (List.subset_cons_self w vs))
    (List.subset_cons_of_subset v hkept)

theorem Invariant.again (h : At π I n W vs m) (hv : v ∈ vs) : At π I n W (v :: vs) m :=
  hI.shrink h (List.cons_subset.mpr ⟨hv, List.Subset.refl vs⟩)
    (List.subset_cons_of_subset v hkept)

theorem Invariant.reaches (h : At π I n W vs m) (hv : v ∈ vs) (hreach : m.store.Reaches v w) :
    At π I n W (w :: vs) m := by
  induction hreach with
  | refl => exact hI.again hkept h hv
  | tail _ hstep ih =>
      obtain ⟨r, rfl, hc⟩ := hstep
      exact hI.swap hkept ⟨hI.child ih.1 List.mem_cons_self hc, ih.2⟩

theorem Invariant.property (h : At π I n W (v :: vs) m) (k : String) :
    At π I n W (m.store.property v k :: vs) m := by
  rcases m.store.property_cases v k with ⟨a, ha⟩ | ⟨r, rfl, hmem⟩
  · rw [ha]
    exact hI.swap hkept (hI.with_scalar h a)
  · exact hI.swap hkept ⟨hI.child h.1 List.mem_cons_self hmem, h.2⟩

theorem Invariant.mapEntry (h : At π I n W (v :: vs) m) (k : String) :
    At π I n W (m.store.mapEntry v k :: vs) m := by
  rcases m.store.mapEntry_cases v k with ⟨a, ha⟩ | ⟨r, rfl, hmem⟩
  · rw [ha]
    exact hI.swap hkept (hI.with_scalar h a)
  · exact hI.swap hkept ⟨hI.child h.1 List.mem_cons_self hmem, h.2⟩

/-! ### Primitive runs -/

theorem Invariant.ensures_property (v : Value) (k : String) (span : Span) :
    Ensures (At π I n W (v :: vs)) (Run.property v k span) (fun w => At π I n W (w :: vs))
      (At π I n W vs) := by
  refine (still_property _ _ _).ensures (fun m w h hw => ?_) fun m h => hI.tail hkept h
  rw [property_ok hw]
  exact hI.property hkept h k

theorem Invariant.ensures_key (v : Value) (span : Span) :
    Ensures (At π I n W (v :: vs)) (key v span) (fun _ => At π I n W vs) (At π I n W vs) :=
  (still_key _ _).ensures (fun _ _ h _ => hI.tail hkept h) fun _ h => hI.tail hkept h

theorem Invariant.ensures_readSteps (span : Span) (v : Value) (steps : List Step) :
    Ensures (At π I n W (v :: vs)) (readSteps span v steps) (fun w => At π I n W (w :: vs))
      (At π I n W vs) := by
  induction steps generalizing v with
  | nil => exact .pure fun m h => h
  | cons step steps ih =>
      cases step with
      | key k => exact (hI.ensures_property hkept v k span).bind ih
      | entry k =>
          refine .look fun m h => (ih (m.store.mapEntry v k)).pre ?_
          rintro _ rfl
          exact hI.mapEntry hkept h k

theorem Invariant.ensures_readPlace (p : Place) (span : Span) :
    Ensures (At π I n W vs) (readPlace names p span) (fun v => At π I n W (v :: vs))
      (At π I n W vs) :=
  (hI.ensures_lookup p.root span).bind fun v => hI.ensures_readSteps hkept span v p.steps

theorem Invariant.ensures_writePlace (p : Place) (v : Value) (span : Span)
    (hlicense : ∀ writes, W <:+ writes → π.license writes ⟨p.root, p.keys, .assign⟩) :
    Ensures (At π I n W (v :: vs)) (writePlace names vs p v span) (fun _ => At π I n W (v :: vs))
      (At π I n W vs) := by
  refine guarded_writePlace.ensures (fun m u m' h hrun => ?_) fun m h => hI.tail hkept h
  exact hI.wrote_at h (writePlace_ok hrun) (List.cons_subset_cons v (List.nil_subset vs)) hlicense

theorem Invariant.ensures_mapSet (p : Place) (k : String) (v : Value) (span : Span)
    (hlicense : ∀ writes, W <:+ writes → π.license writes ⟨p.root, p.keys ++ [k], .mapSet⟩) :
    Ensures (At π I n W (v :: vs)) (mapSet names vs p k v span) (fun u => At π I n W (u :: vs))
      (At π I n W vs) := by
  refine guarded_mapSet.ensures (fun m u m' h hrun => ?_) fun m h => hI.tail hkept h
  obtain ⟨hwrote, b, hb, hreach⟩ := mapSet_ok hrun
  have hafter := hI.wrote_at h hwrote (List.cons_subset_cons v (List.nil_subset vs)) hlicense
  have hscopes : m'.scopes.find? p.root = some b := by
    cases hwrote with
    | assigned bound assignable keys => simp at keys
    | stored => exact hb
  have hvalue : At π I n W (b.value :: vs) m' :=
    ⟨hI.lookup (hI.tail hkept hafter).1 hscopes, hafter.2⟩
  exact hI.swap hkept (hI.reaches (List.subset_cons_of_subset _ hkept) hvalue
    List.mem_cons_self hreach)

theorem Invariant.ensures_method (receiver : Value) (name : String) (args : List Value)
    (span : Span) :
    Ensures (At π I n W (receiver :: vs)) (method receiver name args span)
      (fun v => At π I n W (v :: vs)) (At π I n W vs) := by
  refine (still_method _ _ _ _).ensures (fun m v h hv => ?_) fun m h => hI.tail hkept h
  rcases method_ok hv with ⟨k, rfl⟩ | ⟨b, rfl⟩
  · exact hI.mapEntry hkept h k
  · exact hI.swap hkept (hI.with_scalar h _)

/-- What holds after a failure holds with fewer values at hand. -/
theorem Invariant.loosen {x : Run α} {P : Machine → Prop} {Q : α → Machine → Prop}
    (h : Ensures P x Q (At π I n W (v :: vs))) : Ensures P x Q (At π I n W vs) :=
  h.mono (fun _ => id) (fun _ _ => id) fun _ => hI.tail hkept

theorem Invariant.ensures_alloc {us : List Value} {body : Body} (hbody : body.children ⊆ us) :
    Ensures (At π I n W (us ++ vs)) (Run.alloc body) (fun v => At π I n W (v :: vs))
      (At π I n W vs) := by
  rintro m ⟨h, hledger⟩
  refine ⟨hI.drop (hI.alloc h (List.subset_append_of_subset_left vs hbody)) ?_ ?_,
    hledger.scopes, hledger.since, hledger.journal⟩
  · exact List.cons_subset_cons _ (List.subset_append_right us vs)
  · exact List.subset_cons_of_subset _ hkept

end

/-! ### Expressions -/

/-- What the evaluation of an expression keeps: its value joins the values at hand. -/
def Invariant.Eval (π : Policy) (I : List Value → Machine → Prop) (kept : List Value)
    (names : NameTable) (held : List Value) (e : Expr) : Prop :=
  π.accept e → kept ⊆ held → ∀ n W, Ensures (At π I n W held) (eval names held e)
    (fun v => At π I n W (v :: held)) (At π I n W held)

def Invariant.EvalList (π : Policy) (I : List Value → Machine → Prop) (kept : List Value)
    (names : NameTable) (held : List Value) (es : List Expr) : Prop :=
  (∀ e ∈ es, π.accept e) → kept ⊆ held → ∀ n W, Ensures (At π I n W held)
    (evalList names held es) (fun vs => At π I n W (vs ++ held)) (At π I n W held)

def Invariant.EvalEntries (π : Policy) (I : List Value → Machine → Prop) (kept : List Value)
    (names : NameTable) (held : List Value) (fields : Table Value) (es : List Property) : Prop :=
  (∀ e ∈ es, π.accept e.value) → kept ⊆ held → ∀ n W, Ensures (At π I n W (fields.values ++ held))
    (evalEntries names held fields es) (fun fields => At π I n W (fields.values ++ held))
    (At π I n W held)

/-- What the evaluation of the keys of a place keeps. -/
def Invariant.EvalPlace (π : Policy) (I : List Value → Machine → Prop) (kept : List Value)
    (names : NameTable) (held : List Value) (e : Expr) : Prop :=
  (∀ k ∈ e.keys, π.accept k) → kept ⊆ held → ∀ n W, Ensures (At π I n W held)
    (place names held e) (fun _ => At π I n W held) (At π I n W held)

/-- After the evaluation of the place of a write, the rest of the expression has a license. -/
theorem ensures_pending {β : Type} {x : Run β} {write : β → Write} {f : β → Run Value}
    (hx : Ensures (At π I n W held) x (fun _ => At π I n W held) (At π I n W held))
    (hlicense : Ensures (I held) x (fun a => Pending π (write a)) fun _ => True)
    (hf : ∀ a W', (∀ writes, W' <:+ writes → π.license writes (write a)) →
      Ensures (At π I n W' held) (f a) (fun v => At π I n W' (v :: held)) (At π I n W' held)) :
    Ensures (At π I n W held) (x >>= f) (fun v => At π I n W (v :: held)) (At π I n W held) := by
  have hboth := (hx.and hlicense).mono (fun m h => ⟨h, h.1⟩) (fun _ _ => id) fun _ h => h.1
  refine hboth.bind fun a => .of_eq fun m₀ h₀ => ?_
  have hstart : At π I n m₀.writes held m₀ :=
    ⟨h₀.1.1, h₀.1.2.scopes, List.suffix_refl _, h₀.1.2.journal⟩
  have hback : ∀ {vs m}, At π I n m₀.writes vs m → At π I n W vs m := fun h =>
    ⟨h.1, h.2.scopes, h₀.1.2.since.trans h.2.since, h.2.journal⟩
  refine (hf a m₀.writes h₀.2).mono ?_ (fun _ _ => hback) fun _ => hback
  rintro m rfl
  exact hstart

theorem binary_scalar (st : Store) (op : BinaryOp) (v w : Value) :
    ∃ a, st.binary op v w = .scalar a := by
  unfold Store.binary
  dsimp only
  split <;> exact ⟨_, rfl⟩

theorem unary_scalar (st : Store) (op : UnaryOp) (v : Value) :
    ∃ a, st.unary op v = .scalar a := by
  cases op with
  | neg => exact ⟨_, rfl⟩
  | not => exact ⟨_, rfl⟩

section Cases

variable {site site' : Site} {e target index value : Expr} {prop : Name}

theorem Invariant.Eval.fail {fault : EvalFault} (h : eval names held e = Run.fail fault span) :
    Invariant.Eval π I kept names held e := by
  intro _ _ n W
  rw [h]
  exact .fail fun m h => h

theorem Invariant.EvalPlace.fail {fault : EvalFault}
    (h : place names held e = Run.fail fault span) :
    Invariant.EvalPlace π I kept names held e := by
  intro _ _ n W
  rw [h]
  exact .fail fun m h => h

theorem Invariant.EvalPlace.ident {name : Name} :
    Invariant.EvalPlace π I kept names held (.ident site name) := by
  intro _ _ n W
  rw [place]
  exact .pure fun m h => h

theorem Invariant.EvalList.nil : Invariant.EvalList π I kept names held [] := by
  intro _ _ n W
  rw [evalList]
  exact .pure fun m h => h

theorem Invariant.EvalEntries.nil {fields : Table Value} :
    Invariant.EvalEntries π I kept names held fields [] := by
  intro _ _ n W
  rw [evalEntries]
  exact .pure fun m h => h

theorem Invariant.EvalPlace.member (ih : Invariant.EvalPlace π I kept names held target) :
    Invariant.EvalPlace π I kept names held (.member site target prop) := by
  intro hkeys hkept n W
  rw [place]
  exact (ih hkeys hkept n W).bind fun p => .pure fun m h => h

variable (hI : Invariant π kept base I)

include hI

theorem Invariant.eval_literal {a : Scalar} (h : e.literal? names = some a) :
    Invariant.Eval π I kept names held e := by
  intro _ _ n W
  rw [Run.eval_literal h]
  exact .pure fun m h => hI.with_scalar h a

theorem Invariant.eval_ident {name : Name} :
    Invariant.Eval π I kept names held (.ident site name) := by
  intro _ _ n W
  rw [eval]
  exact hI.ensures_lookup name site.span

variable (ih : Invariant.EvalPlace π I kept names held target)
  (ihindex : Invariant.Eval π I kept names held index)

include ih ihindex

theorem Invariant.ensures_keyed (hkeys : ∀ k ∈ target.keys, π.accept k) (hindex : π.accept index)
    (hkept : kept ⊆ held) :
    Ensures (At π I n W held) (keyed names held target index) (fun _ => At π I n W held)
      (At π I n W held) := by
  refine (ih hkeys hkept n W).bind fun p => ?_
  refine (ihindex hindex hkept n W).bind fun k => ?_
  exact (hI.ensures_key hkept k _).bind fun k => .pure fun m h => h

theorem Invariant.place_index :
    Invariant.EvalPlace π I kept names held (.index site target index) := by
  intro hkeys hkept n W
  rw [Run.place_index]
  refine (hI.ensures_keyed ih ihindex (fun k hk => hkeys k (List.mem_append_left _ hk))
    (hkeys index (by simp [Expr.keys])) hkept).bind fun a => ?_
  exact .pure fun m h => h

theorem Invariant.place_get (hget : names.lookup prop = "get") :
    Invariant.EvalPlace π I kept names held (.call site (.member site' target prop) [index]) := by
  intro hkeys hkept n W
  rw [Run.place_get hget]
  refine (hI.ensures_keyed ih ihindex (fun k hk => hkeys k (List.mem_append_left _ hk))
    (hkeys index (by simp [Expr.keys])) hkept).bind fun a => ?_
  exact .pure fun m h => h

variable (hπ : Enforced π names I)

include hπ

theorem Invariant.eval_set (ihvalue : Invariant.Eval π I kept names held value)
    (hset : names.lookup prop = "set") :
    Invariant.Eval π I kept names held (.call site (.member site' target prop) [index, value]) := by
  intro haccept hkept n W
  have hparts := hπ.parts haccept
  have htarget : ∀ k ∈ target.keys, π.accept k := fun k hk => hparts k (List.mem_append_left _ hk)
  rw [Run.eval_set hset]
  refine ensures_pending (hI.ensures_keyed ih ihindex htarget
    (hparts index (by simp [Expr.parts])) hkept) (hπ.set haccept hset held) fun a W' hlicense => ?_
  refine (ihvalue (hparts value (by simp [Expr.parts])) hkept n W').bind fun v => ?_
  exact hI.ensures_mapSet hkept a.1 a.2 v _ hlicense

theorem Invariant.eval_delete (hdelete : names.lookup prop = "delete") :
    Invariant.Eval π I kept names held (.call site (.member site' target prop) [index]) := by
  intro haccept hkept n W
  have hparts := hπ.parts haccept
  have htarget : ∀ k ∈ target.keys, π.accept k := fun k hk => hparts k (List.mem_append_left _ hk)
  rw [Run.eval_delete hdelete]
  refine ensures_pending (hI.ensures_keyed ih ihindex htarget
    (hparts index (by simp [Expr.parts])) hkept) (hπ.delete haccept hdelete held)
    fun a W' hlicense => ?_
  exact hI.ensures_mapDelete a.1 a.2 _ hlicense

omit ih ihindex

theorem Invariant.eval_member (ih : Invariant.Eval π I kept names held e) :
    Invariant.Eval π I kept names held (.member site e prop) := by
  intro haccept hkept n W
  rw [eval]
  exact (ih (hπ.parts haccept e (by simp [Expr.parts])) hkept n W).bind fun v =>
    hI.ensures_property hkept v _ _

theorem Invariant.eval_index (ih : Invariant.Eval π I kept names held e)
    (ihindex : ∀ v, Invariant.Eval π I kept names (v :: held) index) :
    Invariant.Eval π I kept names held (.index site e index) := by
  intro haccept hkept n W
  have hparts := hπ.parts haccept
  rw [eval]
  refine (ih (hparts e (by simp [Expr.parts])) hkept n W).bind fun v => ?_
  have hkept' : kept ⊆ v :: held := List.subset_cons_of_subset v hkept
  have hindex := ihindex v (hparts index (by simp [Expr.parts])) hkept' n W
  refine (hI.loosen hkept hindex).bind fun k => ?_
  refine (hI.loosen hkept (hI.ensures_key hkept' k _)).bind fun k => ?_
  exact hI.ensures_property hkept v k _

theorem Invariant.eval_method {args : List Expr} (hreads : ReadsOnly names prop args)
    (ih : Invariant.Eval π I kept names held e)
    (ihargs : ∀ v, Invariant.EvalList π I kept names (v :: held) args) :
    Invariant.Eval π I kept names held (.call site (.member site' e prop) args) := by
  intro haccept hkept n W
  have hparts := hπ.parts haccept
  rw [Run.eval_method hreads]
  refine (ih (hparts e (by simp [Expr.parts])) hkept n W).bind fun receiver => ?_
  have hkept' : kept ⊆ receiver :: held := List.subset_cons_of_subset receiver hkept
  have hargs := ihargs receiver (fun e he => hparts e (by simp [Expr.parts, he])) hkept' n W
  refine (hI.loosen hkept hargs).bind fun vs => ?_
  refine (hI.ensures_method hkept receiver _ vs _).pre fun m h => ?_
  exact hI.shrink h (List.subset_append_right vs _) hkept'

theorem Invariant.eval_assign {op : AssignOp}
    (ih : Invariant.EvalPlace π I kept names held target)
    (ihvalue : Invariant.Eval π I kept names held value) :
    Invariant.Eval π I kept names held (.assign site op target value) := by
  intro haccept hkept n W
  have hparts := hπ.parts haccept
  rw [eval]
  refine ensures_pending (ih (fun k hk => hparts k (List.mem_append_left _ hk)) hkept n W)
    (hπ.assign haccept held) fun p W' hlicense => ?_
  refine (ihvalue (hparts value (by simp [Expr.parts])) hkept n W').bind fun v => ?_
  have hkept' : kept ⊆ v :: held := List.subset_cons_of_subset v hkept
  have hwrite : ∀ new, Ensures (At π I n W' (new :: v :: held))
      (do writePlace names (v :: held) p new site.span; pure new)
      (fun new => At π I n W' (new :: held)) (At π I n W' held) := fun new =>
    (hI.loosen hkept (hI.ensures_writePlace hkept' p new _ hlicense)).bind fun _ =>
      .pure fun m h => hI.swap hkept h
  cases op with
  | plain => exact (hwrite v).pre fun m h => hI.again hkept' h List.mem_cons_self
  | compound op =>
      refine (hI.loosen hkept (hI.ensures_readPlace hkept' p _)).bind fun old => ?_
      refine .look fun m h => (hwrite (m.store.binary op old v)).pre ?_
      rintro m' rfl
      obtain ⟨a, ha⟩ := binary_scalar m'.store op old v
      rw [ha]
      exact hI.swap hkept' (hI.with_scalar h a)

theorem Invariant.eval_step {op : StepOp} {fixity : Fixity}
    (ih : Invariant.EvalPlace π I kept names held target) :
    Invariant.Eval π I kept names held (.step site op fixity target) := by
  intro haccept hkept n W
  rw [eval]
  refine ensures_pending (ih (hπ.parts haccept) hkept n W) (hπ.step haccept held)
    fun p W' hlicense => ?_
  refine (hI.ensures_readPlace hkept p _).bind fun v => ?_
  refine .look fun m h => ?_
  refine .bind (Q := fun _ => At π I n W' held) ?_ fun _ =>
    .pure fun m h => hI.with_scalar h _
  refine (hI.ensures_writePlace hkept p _ _ hlicense).mono ?_
    (fun _ m h => hI.tail hkept h) fun _ => id
  rintro _ rfl
  exact hI.with_scalar (hI.tail hkept h) _

theorem Invariant.eval_binary {op : BinaryOp} {left right : Expr}
    (ih : Invariant.Eval π I kept names held left)
    (ihright : ∀ v, Invariant.Eval π I kept names (v :: held) right) :
    Invariant.Eval π I kept names held (.binary site op left right) := by
  intro haccept hkept n W
  have hparts := hπ.parts haccept
  rw [eval]
  refine (ih (hparts left (by simp [Expr.parts])) hkept n W).bind fun v => ?_
  have hkept' : kept ⊆ v :: held := List.subset_cons_of_subset v hkept
  have hright := ihright v (hparts right (by simp [Expr.parts])) hkept' n W
  refine (hI.loosen hkept hright).bind fun w => ?_
  refine .look fun m h => .pure ?_
  rintro m' rfl
  obtain ⟨a, ha⟩ := binary_scalar m'.store op v w
  rw [ha]
  exact hI.with_scalar (hI.tail hkept (hI.tail hkept' h)) a

theorem Invariant.eval_unary {op : UnaryOp} (ih : Invariant.Eval π I kept names held e) :
    Invariant.Eval π I kept names held (.unary site op e) := by
  intro haccept hkept n W
  rw [eval]
  refine (ih (hπ.parts haccept e (by simp [Expr.parts])) hkept n W).bind fun v => ?_
  refine .look fun m h => .pure ?_
  rintro m' rfl
  obtain ⟨a, ha⟩ := unary_scalar m'.store op v
  rw [ha]
  exact hI.with_scalar (hI.tail hkept h) a

theorem Invariant.eval_array {items : List Expr}
    (ih : Invariant.EvalList π I kept names held items) :
    Invariant.Eval π I kept names held (.array site items) := by
  intro haccept hkept n W
  rw [eval]
  refine (ih (hπ.parts haccept) hkept n W).bind fun vs => ?_
  exact hI.ensures_alloc hkept (List.Subset.refl vs)

theorem Invariant.eval_object {entries : List Property}
    (ih : Invariant.EvalEntries π I kept names held .empty entries) :
    Invariant.Eval π I kept names held (.object site entries) := by
  intro haccept hkept n W
  have hparts := hπ.parts haccept
  rw [eval]
  refine Ensures.bind (ih (fun e he => hparts _ (List.mem_map_of_mem he)) hkept n W)
    fun fields => ?_
  exact hI.ensures_alloc hkept (List.Subset.refl fields.values)

omit hπ

theorem Invariant.evalList_cons {es : List Expr} (ih : Invariant.Eval π I kept names held e)
    (ihes : ∀ v, Invariant.EvalList π I kept names (v :: held) es) :
    Invariant.EvalList π I kept names held (e :: es) := by
  intro haccept hkept n W
  obtain ⟨he, hes⟩ := List.forall_mem_cons.mp haccept
  rw [evalList]
  refine (ih he hkept n W).bind fun v => ?_
  have hkept' : kept ⊆ v :: held := List.subset_cons_of_subset v hkept
  refine (hI.loosen hkept (ihes v hes hkept' n W)).bind fun vs => .pure fun m h => ?_
  refine hI.shrink h ?_ ?_
  · simp
  · exact List.subset_cons_of_subset v (List.subset_append_of_subset_right vs hkept)

theorem Invariant.evalEntries_cons {fields : Table Value} {name : Name} {rest : List Property}
    (ih : Invariant.Eval π I kept names (fields.values ++ held) value)
    (ihrest : ∀ v, Invariant.EvalEntries π I kept names held
      (fields.insert (names.lookup name) v) rest) :
    Invariant.EvalEntries π I kept names held fields (.entry name span value :: rest) := by
  intro haccept hkept n W
  obtain ⟨he, hes⟩ := List.forall_mem_cons.mp haccept
  have hkept' : kept ⊆ fields.values ++ held := List.subset_append_of_subset_right _ hkept
  rw [evalEntries]
  refine Ensures.bind (Q := fun v => At π I n W (v :: (fields.values ++ held))) ?_ fun v => ?_
  · refine (ih he hkept' n W).mono (fun _ => id) (fun _ _ => id) fun m h => ?_
    exact hI.shrink h (List.subset_append_right _ held) hkept
  · exact (ihrest v hes hkept n W).pre fun m h => hI.shrink h
      (Table.values_insert_subset fields _ v held) (List.subset_append_of_subset_right _ hkept)

end Cases

theorem Invariant.eval_all (hI : Invariant π kept base I) (hπ : Enforced π names I) :
    (∀ held e, Invariant.Eval π I kept names held e) ∧
    (∀ held fields es, Invariant.EvalEntries π I kept names held fields es) ∧
    (∀ held es, Invariant.EvalList π I kept names held es) ∧
    ∀ held e, Invariant.EvalPlace π I kept names held e := by
  apply eval_induct names
  case literal => exact hI.eval_literal
  case ident => exact hI.eval_ident
  case member => exact hI.eval_member hπ
  case index => exact hI.eval_index hπ
  case set => exact fun hset ih ihindex ihvalue => hI.eval_set ih ihindex hπ ihvalue hset
  case delete => exact fun hdelete ih ihindex => hI.eval_delete ih ihindex hπ hdelete
  case method => exact hI.eval_method hπ
  case notCallable => exact fun h => .fail (h _)
  case assign => exact hI.eval_assign hπ
  case step => exact hI.eval_step hπ
  case binary => exact hI.eval_binary hπ
  case unary => exact hI.eval_unary hπ
  case array => exact hI.eval_array hπ
  case object => exact hI.eval_object hπ
  case root => exact .ident
  case field => exact .member
  case item => exact hI.place_index
  case entry => exact fun hget ih ihindex => hI.place_get ih ihindex hget
  case notAPlace => exact fun h => .fail (h _)
  case nil => exact .nil
  case cons => exact hI.evalList_cons
  case noEntries => exact .nil
  case addEntry => exact hI.evalEntries_cons

theorem Invariant.ensures_eval (hI : Invariant π kept base I) (hπ : Enforced π names I)
    (hkept : kept ⊆ held) {e : Expr} (he : π.accept e) :
    Ensures (At π I n W held) (eval names held e) (fun v => At π I n W (v :: held))
      (At π I n W held) :=
  (hI.eval_all hπ).1 held e he hkept n W

/-! ### Statements -/

theorem Invariant.ensures_inScope (hI : Invariant π kept base I) (hn : base ≤ n) {x : Run α}
    (hx : Ensures (At π I (n + 1) W vs) x (fun _ => At π I (n + 1) W vs)
      (At π I (n + 1) W vs)) :
    Ensures (At π I n W vs) (inScope x) (fun _ => At π I n W vs) (At π I n W vs) := by
  intro m h
  have hleave : ∀ m', At π I (n + 1) W vs m' →
      At π I n W vs { m' with scopes := m'.scopes.tail } := by
    intro m' h'
    refine ⟨hI.leave h'.1 ?_, ?_, h'.2.since, h'.2.journal⟩
    · rw [h'.2.scopes]
      exact Nat.lt_succ_of_le hn
    · simp [h'.2.scopes]
  have hinside : At π I (n + 1) W vs { m with scopes := [] :: m.scopes } :=
    ⟨hI.enter h.1, by simp [h.2.scopes], h.2.since, h.2.journal⟩
  rw [inScope]
  cases hrun : x { m with scopes := [] :: m.scopes } with
  | ok a m₁ => exact hleave m₁ (hx.ok hinside hrun)
  | error e m₁ => exact hleave m₁ (hx.error hinside hrun)

theorem Invariant.ensures_define (hI : Invariant π kept base I) (hkept : kept ⊆ vs)
    {name : Name} (hname : π.declare name) (v : Value) (assignable : Bool) :
    Ensures (At π I n W (v :: vs)) (Run.define name v assignable) (fun _ => At π I n W vs)
      (At π I n W vs) :=
  fun _ h => hI.tail hkept ⟨hI.define assignable h.1 hname List.mem_cons_self,
    (Scopes.length_define _ _ _).trans h.2.scopes, h.2.since, h.2.journal⟩

theorem Invariant.exec_all (hI : Invariant π kept base I) (hπ : Enforced π names I)
    (hkept : kept ⊆ held) :
    (∀ s : Stmt, π.Allows s → ∀ n, base ≤ n → Ensures (At π I n W held) (exec names held s)
      (fun _ => At π I n W held) (At π I n W held)) ∧
    ∀ ss : List Stmt, π.AllowsAll ss → ∀ n, base ≤ n → Ensures (At π I n W held)
      (execList names held ss) (fun _ => At π I n W held) (At π I n W held) := by
  apply stmts_induct
  case expr =>
    intro span value hallows n _
    rw [exec]
    rw [Policy.Allows] at hallows
    exact (hI.ensures_eval hπ hkept hallows).bind fun v => .pure fun m h => hI.tail hkept h
  case declare =>
    intro span name assignable initial hallows n _
    rw [Policy.Allows] at hallows
    cases initial with
    | some e =>
        simp only [exec]
        refine (hI.ensures_eval hπ hkept (hallows.2 e rfl)).bind fun v => ?_
        exact (hI.ensures_define hkept hallows.1 v assignable).bind fun _ => .pure fun m h => h
    | none =>
        simp only [exec, pure_bind]
        refine .bind ((hI.ensures_define hkept hallows.1 _ assignable).pre fun m h => ?_)
          fun _ => .pure fun m h => h
        -- Without an initial value the variable holds `undefined`, which is a handle to no node.
        exact hI.with_scalar h _
  case ret =>
    intro span value hallows n _
    rw [Policy.Allows] at hallows
    cases value with
    | some e =>
        simp only [exec]
        refine (hI.ensures_eval hπ hkept (hallows e rfl)).bind fun v => ?_
        exact .pure fun m h => hI.tail hkept h
    | none =>
        rw [exec]
        exact .pure fun m h => h
  case block =>
    intro span first body ih hallows n hn
    rw [Policy.Allows] at hallows
    rw [exec]
    exact hI.ensures_inScope hn (ih hallows (n + 1) (Nat.le_succ_of_le hn))
  case empty =>
    intro span _ n _
    rw [exec]
    exact .pure fun m h => h
  case nil =>
    intro _ n _
    rw [execList]
    exact .pure fun m h => h
  case cons =>
    intro s rest ih ihrest hallows n hn
    rw [Policy.AllowsAll] at hallows
    rw [execList]
    refine (ih hallows.1 n hn).bind fun flow => ?_
    cases flow with
    | returned => exact .pure fun m h => h
    | next => exact ihrest hallows.2 n hn

theorem Invariant.ensures_execBody (hI : Invariant π kept base I) (hπ : Enforced π names I)
    (hkept : kept ⊆ held) {body : ProcedureBody} (hbody : π.AllowsBody body) (hn : base ≤ n) :
    Ensures (At π I n W held) (execBody names held body) (fun _ => At π I n W held)
      (At π I n W held) := by
  cases body with
  | expr value =>
      rw [execBody]
      exact (hI.ensures_eval hπ hkept hbody).bind fun v => .pure fun m h => hI.tail hkept h
  | block first body =>
      rw [execBody]
      exact hI.ensures_inScope hn
        ((hI.exec_all hπ hkept).2 body hbody (n + 1) (Nat.le_succ_of_le hn))

end Run

/-- An invariant that holds before the body of a procedure holds after it, however it ends, and
every write was licensed. -/
theorem Run.Invariant.execute {π : Policy} {kept : List Value} {I : List Value → Machine → Prop}
    {p : Procedure} (hI : Run.Invariant π kept 2 I) (hπ : Run.Enforced π p.names I)
    (hbody : π.AllowsBody p.body) {held : List Value} {captures : List (String × Value)}
    {state : Value} {arg : Option Value} {st : Store} (hkept : kept ⊆ p.spareArgument arg ++ held)
    (h : I (p.spareArgument arg ++ held) (p.initial captures state arg st)) :
    I (p.spareArgument arg ++ held) (Machine.after (p.execute held captures state arg st)) ∧
      Journal π.license (Machine.after (p.execute held captures state arg st)).writes := by
  have hrun := hI.ensures_execBody (W := []) hπ hkept hbody (Nat.le_refl 2)
  have hstart : Run.At π I 2 [] (p.spareArgument arg ++ held) (p.initial captures state arg st) :=
    ⟨h, rfl, List.suffix_refl [], trivial⟩
  rw [Procedure.execute]
  cases hx : Run.execBody p.names (p.spareArgument arg ++ held) p.body
      (p.initial captures state arg st) with
  | ok flow m => exact ⟨(hrun.ok hstart hx).1, (hrun.ok hstart hx).2.journal⟩
  | error e m => exact ⟨(hrun.error hstart hx).1, (hrun.error hstart hx).2.journal⟩

end PathCopy
