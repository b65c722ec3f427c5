import PathCopy.Proofs.Foresight

/-!
Execution. Procedures have no branches: a run passes over a statement only if a `return` stands
before it. So a run that ends well has executed every write of the text up to there, each at the
keys that its path stands for.
-/

namespace PathCopy

/-- A write of the journal went through the state along a path, and at the keys that the argument
supplies unless its parameter was assigned. -/
def Performed (roles : Roles) (st : Store) (arg : Value) (writes : List Write) (path : WritePath) :
    Prop :=
  ∃ w ∈ writes, w.root = roles.state ∧ w.effect = path.effect ∧ path.Matches w.keys ∧
    (¬ Rebound roles writes → List.Forall₂ (Segment.Spells st arg) path.segments w.keys)

theorem Performed.mono {roles : Roles} {st : Store} {arg : Value} {earlier writes : List Write}
    {path : WritePath} (h : Performed roles st arg earlier path) (hsub : earlier ⊆ writes) :
    Performed roles st arg writes path := by
  obtain ⟨w, hw, hroot, heffect, hmatches, hspells⟩ := h
  exact ⟨w, hsub hw, hroot, heffect, hmatches, fun hnot => hspells fun hre => hnot (hre.mono hsub)⟩

namespace Run

variable {α β : Type} {names : NameTable} {held : List Value} {m m' : Machine} {v : Value}
  {k : String} {span : Span} {pl : Place}

/-! ### The journal only grows -/

def Logs (x : Run α) : Prop := ∀ m a m', x m = .ok a m' → m.writes ⊆ m'.writes

theorem Still.logs {x : Run α} (hx : Still x) : Logs x := by
  intro m a m' h
  cases hx.ok h
  exact List.Subset.refl _

theorem Logs.bind {x : Run α} {f : α → Run β} (hx : Logs x) (hf : ∀ a, Logs (f a)) :
    Logs (x >>= f) := by
  intro m b m' h
  obtain ⟨a, m₁, hrun, hrest⟩ := bind_ok h
  exact List.Subset.trans (hx m a m₁ hrun) (hf a m₁ b m' hrest)

theorem Wrote.logs {new : List Value} {w : Write} (h : Wrote held new w m m') :
    m.writes ⊆ m'.writes := by
  rw [h.writes_eq]
  exact List.subset_cons_self _ _

theorem logs_writePlace : Logs (writePlace names held pl v span) :=
  fun _ _ _ h => (writePlace_ok h).logs

theorem logs_mapSet : Logs (mapSet names held pl k v span) := fun _ _ _ h => (mapSet_ok h).1.logs

theorem logs_mapDelete : Logs (mapDelete names held pl k span) :=
  fun _ _ _ h => (mapDelete_ok h).1.logs

theorem logs_alloc (body : Body) : Logs (alloc body) := by
  intro m a m' h
  cases h
  exact List.Subset.refl _

theorem logs_define (name : Name) (v : Value) (assignable : Bool) :
    Logs (define name v assignable) := by
  intro m a m' h
  cases h
  exact List.Subset.refl _

theorem logs_readSteps (v : Value) (steps : List Step) : Logs (readSteps span v steps) := by
  induction steps generalizing v with
  | nil => exact (still_pure v).logs
  | cons step steps ih =>
      cases step with
      | key k => exact (still_property v k span).logs.bind ih
      | entry k => exact still_get.logs.bind fun m => ih _

theorem logs_readPlace : Logs (readPlace names pl span) :=
  (still_lookup _ _ _).logs.bind fun v => logs_readSteps v _

theorem logs_assignment {op : AssignOp} : Logs (do
    let new ← match op with
      | .plain => pure v
      | .compound op => do
        let old ← readPlace names pl span
        pure ((← get).store.binary op old v)
    writePlace names (v :: held) pl new span
    pure new) := by
  have hwrite : ∀ new, Logs (do
      writePlace names (v :: held) pl new span
      pure new) := fun new => logs_writePlace.bind fun _ => (still_pure _).logs
  cases op with
  | plain => exact (still_pure _).logs.bind hwrite
  | compound op =>
      exact logs_readPlace.bind fun old => still_get.logs.bind fun m =>
        (still_pure _).logs.bind hwrite

theorem journal_free (writes : List Write) : Journal Policy.free.license writes := by
  induction writes with
  | nil => trivial
  | cons w writes ih => exact ⟨trivial, ih⟩

theorem logs_of_ensures {x : Run α} {vs ws : List Value} {us : α → List Value}
    (h : ∀ n W, Ensures (At .free (fun _ _ => True) n W vs) x
      (fun a => At .free (fun _ _ => True) n W (us a)) (At .free (fun _ _ => True) n W ws)) :
    Logs x := by
  intro m a m' hrun
  have hend := h m.scopes.length m.writes m ⟨trivial, rfl, List.suffix_refl _, journal_free _⟩
  rw [hrun] at hend
  exact hend.2.since.subset

theorem invariant_true : Invariant .free [] 0 fun _ _ => True where
  drop _ _ _ := trivial
  scalar _ _ := trivial
  child _ _ _ := trivial
  lookup _ _ := trivial
  alloc _ _ := trivial
  define _ _ _ _ := trivial
  wrote _ _ _ _ := trivial
  enter _ := trivial
  leave _ _ := trivial

theorem logs_eval (held : List Value) (e : Expr) : Logs (eval names held e) :=
  logs_of_ensures fun n W => (invariant_true.eval_all (enforced_free names _)).1 held e trivial
    (List.nil_subset held) n W

theorem logs_evalList (held : List Value) (es : List Expr) : Logs (evalList names held es) :=
  logs_of_ensures fun n W => (invariant_true.eval_all (enforced_free names _)).2.2.1 held es
    (fun _ _ => trivial) (List.nil_subset held) n W

theorem logs_evalEntries (held : List Value) (fields : Table Value) (es : List Property) :
    Logs (evalEntries names held fields es) :=
  logs_of_ensures fun n W => (invariant_true.eval_all (enforced_free names _)).2.1 held fields es
    (fun _ _ => trivial) (List.nil_subset held) n W

theorem logs_execList (held : List Value) (ss : List Stmt) : Logs (execList names held ss) :=
  logs_of_ensures fun n _ => (invariant_true.exec_all (enforced_free names _)
    (List.nil_subset held)).2 ss (Policy.free_allows.2 ss) n (Nat.zero_le n)

/-! ### Writes that a run performs -/

/-- If the machine has `P` before the run and the run ends well, the paths were performed. -/
def Performs (roles : Roles) (st : Store) (arg : Value) (P : Machine → Prop) (x : Run α)
    (paths : List WritePath) : Prop :=
  ∀ m a m', P m → x m = .ok a m' → ∀ path ∈ paths, Performed roles st arg m'.writes path

namespace Performs

variable {roles : Roles} {st : Store} {arg : Value} {P P' E : Machine → Prop} {x : Run α}
  {f : α → Run β} {Q : α → Machine → Prop} {ws vs : List WritePath}

theorem nil : Performs roles st arg P x [] := fun _ _ _ _ _ => nofun

theorem append (h : Performs roles st arg P x ws) (h' : Performs roles st arg P x vs) :
    Performs roles st arg P x (ws ++ vs) := fun m a m' hP hrun =>
  List.forall_mem_append.mpr ⟨h m a m' hP hrun, h' m a m' hP hrun⟩

theorem of_fail {fault : EvalFault} :
    Performs roles st arg P (fail fault span : Run α) ws := fun _ _ _ _ h => nomatch h

theorem pre (h : Performs roles st arg P x ws) (hpre : ∀ m, P' m → P m) :
    Performs roles st arg P' x ws := fun m a m' hP => h m a m' (hpre m hP)

theorem first (hx : Performs roles st arg P x ws) (hf : ∀ a, Logs (f a)) :
    Performs roles st arg P (x >>= f) ws := by
  intro m b m' hP h path hpath
  obtain ⟨a, m₁, hrun, hrest⟩ := bind_ok h
  exact (hx m a m₁ hP hrun path hpath).mono (hf a m₁ b m' hrest)

theorem next (hx : Ensures P x Q E) (hf : ∀ a, Performs roles st arg (Q a) (f a) ws) :
    Performs roles st arg P (x >>= f) ws := by
  intro m b m' hP h
  obtain ⟨a, m₁, hrun, hrest⟩ := bind_ok h
  have hmid := hx m hP
  rw [hrun] at hmid
  exact hf a m₁ b m' hmid hrest

theorem bind (hx : Performs roles st arg P x ws) (hmid : Ensures P x Q E)
    (hf : ∀ a, Performs roles st arg (Q a) (f a) vs) (hlogs : ∀ a, Logs (f a)) :
    Performs roles st arg P (x >>= f) (ws ++ vs) :=
  (hx.first hlogs).append (next hmid hf)

end Performs

end Run

/-! ### Expressions -/

section Expressions

open Run

variable {p : Procedure} {roles : Roles} {paths : List WritePath} {st : Store}
  {kept : List Value} {arg : Value} {n : ℕ} {W : List Write} {held : List Value}
  {m m' : Machine} {segments : List Segment}

def Foresees (p : Procedure) (roles : Roles) (paths : List WritePath) (st : Store)
    (kept : List Value) (arg : Value) (n : ℕ) (W : List Write) (held : List Value) :
    Machine → Prop :=
  At (foresight p roles paths st arg) (Supplied roles st kept arg) n W held

/-- The write at the end of a run, at keys that were read off the segments of a path before. -/
theorem performed_of_reads {keys : List String} {effect : Effect} {root : Name}
    {vs : List Value}
    (h : Supplied roles st kept arg vs m) (hsound : st.Sound kept) (harg : st.Within kept arg)
    (hroot : root = roles.state) (hreads : List.Forall₂ (Segment.Reads roles m) segments keys)
    (hlogs : m.writes ⊆ m'.writes) (hmem : ⟨root, keys, effect⟩ ∈ m'.writes) :
    Performed roles st arg m'.writes ⟨segments, effect⟩ :=
  ⟨_, hmem, hroot, rfl, hreads.imp fun _ _ => Segment.Reads.matches, fun hnot =>
    h.spelled hsound harg (fun hre => hnot (hre.mono hlogs)) hreads⟩

theorem performs_set (hsound : st.Sound kept) (harg : st.Within kept arg) {site site' : Site}
    {base index value : Expr} {prop : Name} {s : Segment} (hset : p.names.lookup prop = "set")
    (hchain : p.stateChain roles base = .ok (some segments)) (hs : p.segment roles index = .ok s) :
    Performs roles st arg (Supplied roles st kept arg held)
      (eval p.names held (.call site (.member site' base prop) [index, value]))
      [⟨segments ++ [s], .mapSet⟩] := by
  intro m u m' hm hrun
  rw [eval_set hset] at hrun
  obtain ⟨⟨pl, k⟩, m₁, hkeyed, hrun⟩ := bind_ok hrun
  obtain ⟨v, m₂, hv, hwrite⟩ := bind_ok hrun
  obtain ⟨rfl, hroot, hreads⟩ := (keyed_traces hchain hkeyed).2 segments s rfl hs
  have hwrote := (mapSet_ok hwrite).1
  refine List.forall_mem_singleton.mpr (performed_of_reads hm hsound harg hroot hreads ?_ ?_)
  · exact List.Subset.trans (logs_eval held value _ v m₂ hv) hwrote.logs
  · rw [hwrote.writes_eq]
    exact List.mem_cons_self

theorem performs_delete (hsound : st.Sound kept) (harg : st.Within kept arg) {site site' : Site}
    {base index : Expr} {prop : Name} {s : Segment} (hdelete : p.names.lookup prop = "delete")
    (hchain : p.stateChain roles base = .ok (some segments)) (hs : p.segment roles index = .ok s) :
    Performs roles st arg (Supplied roles st kept arg held)
      (eval p.names held (.call site (.member site' base prop) [index]))
      [⟨segments ++ [s], .mapDelete⟩] := by
  intro m u m' hm hrun
  rw [eval_delete hdelete] at hrun
  obtain ⟨⟨pl, k⟩, m₁, hkeyed, hwrite⟩ := bind_ok hrun
  obtain ⟨rfl, hroot, hreads⟩ := (keyed_traces hchain hkeyed).2 segments s rfl hs
  have hwrote := (mapDelete_ok hwrite).1
  refine List.forall_mem_singleton.mpr
    (performed_of_reads hm hsound harg hroot hreads hwrote.logs ?_)
  rw [hwrote.writes_eq]
  exact List.mem_cons_self

theorem performs_assign (hsound : st.Sound kept) (harg : st.Within kept arg) {site : Site}
    {target value : Expr} (hchain : p.stateChain roles target = .ok (some segments)) :
    Performs roles st arg (Supplied roles st kept arg held)
      (eval p.names held (.assign site .plain target value)) [⟨segments, .assign⟩] := by
  intro m u m' hm hrun
  rw [eval] at hrun
  obtain ⟨pl, m₁, hpl, hrun⟩ := bind_ok hrun
  obtain ⟨v, m₂, hv, hrun⟩ := bind_ok hrun
  obtain ⟨new, m₃, hnew, hrun⟩ := bind_ok hrun
  obtain ⟨done, m₄, hwrite, hlast⟩ := bind_ok hrun
  cases hnew
  cases hlast
  obtain ⟨rfl, hroot, hreads⟩ := Procedure.place_traces hchain hpl
  have hwrote := writePlace_ok hwrite
  refine List.forall_mem_singleton.mpr (performed_of_reads hm hsound harg hroot hreads ?_ ?_)
  · exact List.Subset.trans (logs_eval held value _ _ m₂ hv) hwrote.logs
  · rw [hwrote.writes_eq]
    exact List.mem_cons_self

theorem callWrites_set {site site' : Site} {base index value : Expr} {prop : Name}
    {own : List WritePath} (hset : p.names.lookup prop = "set")
    (h : p.callWrites roles site (.member site' base prop) [index, value] = .ok own) :
    own = [] ∨ ∃ segments s, p.stateChain roles base = .ok (some segments) ∧
      p.segment roles index = .ok s ∧ own = [⟨segments ++ [s], .mapSet⟩] := by
  rw [Procedure.callWrites] at h
  obtain ⟨chain, hchain, h⟩ := except_bind_ok h
  cases chain with
  | none =>
      cases h
      exact .inl rfl
  | some segments =>
      simp only [Procedure.nameText, hset] at h
      obtain ⟨s, hs, h⟩ := except_bind_ok h
      cases h
      exact .inr ⟨segments, s, hchain, hs, rfl⟩

theorem callWrites_delete {site site' : Site} {base index : Expr} {prop : Name}
    {own : List WritePath} (hdelete : p.names.lookup prop = "delete")
    (h : p.callWrites roles site (.member site' base prop) [index] = .ok own) :
    own = [] ∨ ∃ segments s, p.stateChain roles base = .ok (some segments) ∧
      p.segment roles index = .ok s ∧ own = [⟨segments ++ [s], .mapDelete⟩] := by
  rw [Procedure.callWrites] at h
  obtain ⟨chain, hchain, h⟩ := except_bind_ok h
  cases chain with
  | none =>
      cases h
      exact .inl rfl
  | some segments =>
      simp only [Procedure.nameText, hdelete] at h
      obtain ⟨s, hs, h⟩ := except_bind_ok h
      cases h
      exact .inr ⟨segments, s, hchain, hs, rfl⟩

theorem callWrites_other {site site' : Site} {base : Expr} {prop : Name} {args : List Expr}
    {own : List WritePath} (hreads : ReadsOnly p.names prop args)
    (h : p.callWrites roles site (.member site' base prop) args = .ok own) : own = [] := by
  rw [Procedure.callWrites] at h
  obtain ⟨chain, hchain, h⟩ := except_bind_ok h
  cases chain with
  | none =>
      cases h
      rfl
  | some segments =>
      dsimp only at h
      split at h
      · cases h
        rfl
      · next hname _ => exact (hreads.1 _ _ hname rfl).elim
      · next hname _ => exact (hreads.2 _ hname rfl).elim
      · cases h

theorem listWrites_cons {e : Expr} {es : List Expr} {ws : List WritePath}
    (h : p.listWrites roles (e :: es) = .ok ws) :
    ∃ us vs, p.exprWrites roles e = .ok us ∧ p.listWrites roles es = .ok vs ∧ ws = us ++ vs := by
  rw [Procedure.listWrites] at h
  obtain ⟨us, hus, h⟩ := except_bind_ok h
  obtain ⟨vs, hvs, h⟩ := except_bind_ok h
  cases h
  exact ⟨us, vs, hus, hvs, rfl⟩

theorem listWrites_singleton {e : Expr} {ws : List WritePath}
    (h : p.listWrites roles [e] = .ok ws) : p.exprWrites roles e = .ok ws := by
  obtain ⟨us, vs, hus, hvs, rfl⟩ := listWrites_cons h
  rw [Procedure.listWrites] at hvs
  cases hvs
  rw [hus, List.append_nil]

/-- The writes of the call of a method: its own, those of the receiver and those of the operands. -/
theorem exprWrites_call {site site' : Site} {base : Expr} {prop : Name} {args : List Expr}
    {ws : List WritePath}
    (h : p.exprWrites roles (.call site (.member site' base prop) args) = .ok ws) :
    ∃ own us vs, p.callWrites roles site (.member site' base prop) args = .ok own ∧
      p.exprWrites roles base = .ok us ∧ p.listWrites roles args = .ok vs ∧
      ws = own ++ us ++ vs := by
  rw [Procedure.exprWrites] at h
  obtain ⟨own, hown, h⟩ := except_bind_ok h
  obtain ⟨us, hus, h⟩ := except_bind_ok h
  obtain ⟨vs, hvs, h⟩ := except_bind_ok h
  cases h
  rw [Procedure.exprWrites] at hus
  exact ⟨own, us, vs, hown, hus, hvs, rfl⟩

/-- The evaluation of an expression performs the writes of the expression. -/
def Run.Performs.Eval (p : Procedure) (roles : Roles) (paths : List WritePath) (st : Store)
    (kept : List Value) (arg : Value) (held : List Value) (e : Expr) : Prop :=
  kept ⊆ held → ∀ ws, p.exprWrites roles e = .ok ws → ws ⊆ paths → ∀ n W,
    Performs roles st arg (Foresees p roles paths st kept arg n W held) (eval p.names held e) ws

def Run.Performs.EvalList (p : Procedure) (roles : Roles) (paths : List WritePath) (st : Store)
    (kept : List Value) (arg : Value) (held : List Value) (es : List Expr) : Prop :=
  kept ⊆ held → ∀ ws, p.listWrites roles es = .ok ws → ws ⊆ paths → ∀ n W,
    Performs roles st arg (Foresees p roles paths st kept arg n W held)
      (evalList p.names held es) ws

def Run.Performs.EvalEntries (p : Procedure) (roles : Roles) (paths : List WritePath) (st : Store)
    (kept : List Value) (arg : Value) (held : List Value) (fields : Table Value)
    (es : List Property) : Prop :=
  kept ⊆ held → ∀ ws, p.entriesWrites roles es = .ok ws → ws ⊆ paths → ∀ n W,
    Performs roles st arg (Foresees p roles paths st kept arg n W (fields.values ++ held))
      (evalEntries p.names held fields es) ws

/-- The evaluation of the keys of a place performs the writes of its expression. -/
def Run.Performs.EvalPlace (p : Procedure) (roles : Roles) (paths : List WritePath) (st : Store)
    (kept : List Value) (arg : Value) (held : List Value) (e : Expr) : Prop :=
  kept ⊆ held → ∀ ws, p.exprWrites roles e = .ok ws → ws ⊆ paths → ∀ n W,
    Performs roles st arg (Foresees p roles paths st kept arg n W held) (place p.names held e) ws

section Cases

variable {site site' : Site} {e base index value left right : Expr} {prop : Name} {args : List Expr}
  {ws us vs : List WritePath}

theorem performs_none (h : p.exprWrites roles e = .ok []) :
    Performs.Eval p roles paths st kept arg held e := by
  intro _ ws hws
  rw [h] at hws
  cases hws
  exact fun _ _ _ => .nil

theorem exprWrites_literal {a : Scalar} (h : e.literal? p.names = some a) :
    p.exprWrites roles e = .ok [] := by
  cases e <;> cases h <;> rw [Procedure.exprWrites]

theorem performs_fail {fault : EvalFault} {span : Span}
    (h : eval p.names held e = Run.fail fault span) :
    Performs.Eval p roles paths st kept arg held e := by
  intro _ ws _ _ n W
  rw [h]
  exact .of_fail

theorem performs_notAPlace {fault : EvalFault} {span : Span}
    (h : place p.names held e = Run.fail fault span) :
    Performs.EvalPlace p roles paths st kept arg held e := by
  intro _ ws _ _ n W
  rw [h]
  exact .of_fail

theorem performs_root {name : Name} :
    Performs.EvalPlace p roles paths st kept arg held (.ident site name) := by
  intro _ ws hws
  rw [Procedure.exprWrites] at hws
  cases hws
  exact fun _ _ _ => .nil

theorem performs_nil : Performs.EvalList p roles paths st kept arg held [] := by
  intro _ ws hws
  rw [Procedure.listWrites] at hws
  cases hws
  exact fun _ _ _ => .nil

theorem performs_noEntries {fields : Table Value} :
    Performs.EvalEntries p roles paths st kept arg held fields [] := by
  intro _ ws hws
  rw [Procedure.entriesWrites] at hws
  cases hws
  exact fun _ _ _ => .nil

theorem performs_member (ih : Performs.Eval p roles paths st kept arg held e) :
    Performs.Eval p roles paths st kept arg held (.member site e prop) := by
  intro hkept ws hws hsub n W
  rw [Procedure.exprWrites] at hws
  rw [eval]
  exact (ih hkept ws hws hsub n W).first fun v => (still_property _ _ _).logs

theorem performs_unary {op : UnaryOp} (ih : Performs.Eval p roles paths st kept arg held e) :
    Performs.Eval p roles paths st kept arg held (.unary site op e) := by
  intro hkept ws hws hsub n W
  rw [Procedure.exprWrites] at hws
  rw [eval]
  exact (ih hkept ws hws hsub n W).first fun v => still_get.logs.bind fun m => (still_pure _).logs

theorem performs_array {items : List Expr}
    (ih : Performs.EvalList p roles paths st kept arg held items) :
    Performs.Eval p roles paths st kept arg held (.array site items) := by
  intro hkept ws hws hsub n W
  rw [Procedure.exprWrites] at hws
  rw [eval]
  exact (ih hkept ws hws hsub n W).first fun vs => logs_alloc _

theorem performs_object {entries : List Property}
    (ih : Performs.EvalEntries p roles paths st kept arg held .empty entries) :
    Performs.Eval p roles paths st kept arg held (.object site entries) := by
  intro hkept ws hws hsub n W
  rw [Procedure.exprWrites] at hws
  rw [eval]
  exact (ih hkept ws hws hsub n W).first fun fields => logs_alloc _

theorem performs_step {op : StepOp} {fixity : Fixity}
    (ih : Performs.EvalPlace p roles paths st kept arg held e) :
    Performs.Eval p roles paths st kept arg held (.step site op fixity e) := by
  intro hkept ws hws hsub n W
  rw [Procedure.exprWrites] at hws
  obtain ⟨chain, hchain, hws⟩ := except_bind_ok hws
  cases chain with
  | some segments => cases hws
  | none =>
      rw [eval]
      exact (ih hkept ws hws hsub n W).first fun pl => logs_readPlace.bind fun v =>
        still_get.logs.bind fun m => logs_writePlace.bind fun _ => (still_pure _).logs

theorem performs_placeMember (ih : Performs.EvalPlace p roles paths st kept arg held base) :
    Performs.EvalPlace p roles paths st kept arg held (.member site base prop) := by
  intro hkept ws hws hsub n W
  rw [Procedure.exprWrites] at hws
  rw [place]
  exact (ih hkept ws hws hsub n W).first fun pl => (still_pure _).logs

variable (hsound : st.Sound kept) (harg : st.Within kept arg)

include hsound harg

theorem ensures_foresees (hcovered : Covered p roles paths e) (hkept : kept ⊆ held) :
    Ensures (Foresees p roles paths st kept arg n W held) (eval p.names held e)
      (fun v => Foresees p roles paths st kept arg n W (v :: held))
      (Foresees p roles paths st kept arg n W held) :=
  (supplied_invariant hsound).ensures_eval (enforced_foresight hsound harg) hkept hcovered

theorem ensures_foresees_place (hkeys : ∀ k ∈ e.keys, Covered p roles paths k)
    (hkept : kept ⊆ held) :
    Ensures (Foresees p roles paths st kept arg n W held) (place p.names held e)
      (fun _ => Foresees p roles paths st kept arg n W held)
      (Foresees p roles paths st kept arg n W held) :=
  ((supplied_invariant hsound).eval_all (enforced_foresight hsound harg)).2.2.2 held e hkeys hkept
    n W

theorem ensures_foresees_keyed (hbase : Covered p roles paths base)
    (hindex : Covered p roles paths index) (hkept : kept ⊆ held) :
    Ensures (Foresees p roles paths st kept arg n W held) (keyed p.names held base index)
      (fun _ => Foresees p roles paths st kept arg n W held)
      (Foresees p roles paths st kept arg n W held) := by
  have hI : Run.Invariant (foresight p roles paths st arg) kept 2 (Supplied roles st kept arg) :=
    supplied_invariant hsound
  have hall := hI.eval_all (enforced_foresight hsound harg)
  exact hI.ensures_keyed (hall.2.2.2 held base) (hall.1 held index) hbase.keys hindex hkept

theorem performs_then {α : Type} {f : Value → Run α}
    (ih : Performs.Eval p roles paths st kept arg held e) (hus : p.exprWrites roles e = .ok us)
    (hsub : us ⊆ paths) (hkept : kept ⊆ held)
    (hf : ∀ v, Performs roles st arg (Foresees p roles paths st kept arg n W (v :: held)) (f v) vs)
    (hlogs : ∀ v, Logs (f v)) :
    Performs roles st arg (Foresees p roles paths st kept arg n W held)
      (eval p.names held e >>= f) (us ++ vs) :=
  (ih hkept us hus hsub n W).bind (ensures_foresees hsound harg ⟨us, hus, hsub⟩ hkept) hf hlogs

theorem performs_index (ih : Performs.Eval p roles paths st kept arg held base)
    (ihindex : ∀ v, Performs.Eval p roles paths st kept arg (v :: held) index) :
    Performs.Eval p roles paths st kept arg held (.index site base index) := by
  intro hkept ws hws hsub n W
  rw [Procedure.exprWrites] at hws
  obtain ⟨us, hus, hws⟩ := except_bind_ok hws
  obtain ⟨vs, hvs, hws⟩ := except_bind_ok hws
  cases hws
  obtain ⟨hleft, hright⟩ := List.append_subset.mp hsub
  rw [eval]
  refine performs_then hsound harg ih hus hleft hkept (fun v => ?_) fun v =>
    (logs_eval _ _).bind fun k => (still_key _ _).logs.bind fun k => (still_property _ _ _).logs
  exact (ihindex v (List.subset_cons_of_subset v hkept) vs hvs hright n W).first fun k =>
    (still_key _ _).logs.bind fun k => (still_property _ _ _).logs

theorem performs_binary {op : BinaryOp} (ih : Performs.Eval p roles paths st kept arg held left)
    (ihright : ∀ v, Performs.Eval p roles paths st kept arg (v :: held) right) :
    Performs.Eval p roles paths st kept arg held (.binary site op left right) := by
  intro hkept ws hws hsub n W
  rw [Procedure.exprWrites] at hws
  obtain ⟨us, hus, hws⟩ := except_bind_ok hws
  obtain ⟨vs, hvs, hws⟩ := except_bind_ok hws
  cases hws
  obtain ⟨hleft, hright⟩ := List.append_subset.mp hsub
  rw [eval]
  refine performs_then hsound harg ih hus hleft hkept (fun v => ?_) fun v =>
    (logs_eval _ _).bind fun w => still_get.logs.bind fun m => (still_pure _).logs
  exact (ihright v (List.subset_cons_of_subset v hkept) vs hvs hright n W).first fun w =>
    still_get.logs.bind fun m => (still_pure _).logs

theorem performs_cons {es : List Expr} (ih : Performs.Eval p roles paths st kept arg held e)
    (ihes : ∀ v, Performs.EvalList p roles paths st kept arg (v :: held) es) :
    Performs.EvalList p roles paths st kept arg held (e :: es) := by
  intro hkept ws hws hsub n W
  obtain ⟨us, vs, hus, hvs, rfl⟩ := listWrites_cons hws
  obtain ⟨hleft, hright⟩ := List.append_subset.mp hsub
  rw [evalList]
  refine performs_then hsound harg ih hus hleft hkept (fun v => ?_) fun v =>
    (logs_evalList _ _).bind fun vs => (still_pure _).logs
  exact (ihes v (List.subset_cons_of_subset v hkept) vs hvs hright n W).first fun vs =>
    (still_pure _).logs

theorem performs_entry {fields : Table Value} {name : Name} {span : Span} {rest : List Property}
    (ih : Performs.Eval p roles paths st kept arg (fields.values ++ held) value)
    (ihrest : ∀ v, Performs.EvalEntries p roles paths st kept arg held
      (fields.insert (p.names.lookup name) v) rest) :
    Performs.EvalEntries p roles paths st kept arg held fields (.entry name span value :: rest) := by
  intro hkept ws hws hsub n W
  rw [Procedure.entriesWrites] at hws
  obtain ⟨us, hus, hws⟩ := except_bind_ok hws
  obtain ⟨vs, hvs, hws⟩ := except_bind_ok hws
  cases hws
  obtain ⟨hleft, hright⟩ := List.append_subset.mp hsub
  have hkept' : kept ⊆ fields.values ++ held := List.subset_append_of_subset_right _ hkept
  rw [evalEntries]
  refine performs_then hsound harg ih hus hleft hkept' (fun v => ?_) fun v => logs_evalEntries _ _ _
  exact (ihrest v hkept vs hvs hright n W).pre fun m h => (supplied_invariant hsound).shrink h
    (Table.values_insert_subset fields _ v held) (List.subset_append_of_subset_right _ hkept)

theorem performs_method (hreads : ReadsOnly p.names prop args)
    (ih : Performs.Eval p roles paths st kept arg held base)
    (ihargs : ∀ v, Performs.EvalList p roles paths st kept arg (v :: held) args) :
    Performs.Eval p roles paths st kept arg held (.call site (.member site' base prop) args) := by
  intro hkept ws hws hsub n W
  obtain ⟨own, us, vs, hown, hus, hvs, rfl⟩ := exprWrites_call hws
  cases callWrites_other hreads hown
  obtain ⟨hleft, hright⟩ := List.append_subset.mp hsub
  rw [eval_method hreads]
  refine performs_then hsound harg ih hus hleft hkept (fun receiver => ?_) fun receiver =>
    (logs_evalList _ _).bind fun vs => (still_method _ _ _ _).logs
  exact (ihargs receiver (List.subset_cons_of_subset receiver hkept) vs hvs hright n W).first
    fun vs => (still_method _ _ _ _).logs

/-- An assignment to a part of the state makes a write of its own, and its target has no others. -/
theorem performs_assignment {op : AssignOp}
    (ih : Performs.EvalPlace p roles paths st kept arg held e)
    (ihvalue : Performs.Eval p roles paths st kept arg held value) :
    Performs.Eval p roles paths st kept arg held (.assign site op e value) := by
  intro hkept ws hws hsub n W
  rw [Procedure.exprWrites] at hws
  obtain ⟨chain, hchain, hws⟩ := except_bind_ok hws
  -- A target elsewhere may hold writes. One at the state holds none, and its own is listed first.
  cases chain with
  | none =>
      obtain ⟨us, hus, hws⟩ := except_bind_ok hws
      obtain ⟨vs, hvs, hws⟩ := except_bind_ok hws
      cases hws
      obtain ⟨hleft, hright⟩ := List.append_subset.mp hsub
      rw [eval]
      refine (ih hkept us hus hleft n W).bind
        (ensures_foresees_place hsound harg (Covered.keys ⟨us, hus, hleft⟩) hkept) (fun pl => ?_)
        fun pl => (logs_eval _ _).bind fun v => logs_assignment
      exact (ihvalue hkept vs hvs hright n W).first fun v => logs_assignment
  | some segments =>
      dsimp only at hws
      split at hws
      · cases hws
      · next hop =>
        split at hws
        · cases hws
        · obtain ⟨vs, hvs, hws⟩ := except_bind_ok hws
          cases hws
          obtain ⟨hpath, hright⟩ := List.cons_subset.mp hsub
          rw [← List.singleton_append]
          refine Performs.append ?_ ?_
          · obtain rfl : op = .plain := by
              by_contra hne
              exact hop hne
            exact (performs_assign hsound harg hchain).pre fun m h => h.1
          · have hkeys : ∀ k ∈ e.keys, Covered p roles paths k :=
              (Procedure.stateChain_some_iff.mp hchain).covered_keys
            rw [eval]
            refine .next (ensures_foresees_place hsound harg hkeys hkept) fun pl => ?_
            exact (ihvalue hkept vs hvs hright n W).first fun v => logs_assignment

variable (ih : Performs.EvalPlace p roles paths st kept arg held base)
  (ihindex : Performs.Eval p roles paths st kept arg held index)

include ih ihindex

theorem performs_keyed (hus : p.exprWrites roles base = .ok us)
    (hvs : p.exprWrites roles index = .ok vs) (hleft : us ⊆ paths) (hright : vs ⊆ paths)
    (hkept : kept ⊆ held) :
    Performs roles st arg (Foresees p roles paths st kept arg n W held)
      (keyed p.names held base index) (us ++ vs) := by
  refine (ih hkept us hus hleft n W).bind
    (ensures_foresees_place hsound harg (Covered.keys ⟨us, hus, hleft⟩) hkept) (fun pl => ?_)
    fun pl => (logs_eval _ _).bind fun k => (still_key _ _).logs.bind fun k => (still_pure _).logs
  exact (ihindex hkept vs hvs hright n W).first fun k => (still_key _ _).logs.bind fun k =>
    (still_pure _).logs

/-- A call of `set` performs the write of its own besides those of its parts. -/
theorem performs_callSet (ihvalue : Performs.Eval p roles paths st kept arg held value)
    (hset : p.names.lookup prop = "set") :
    Performs.Eval p roles paths st kept arg held
      (.call site (.member site' base prop) [index, value]) := by
  intro hkept ws hws hsub n W
  obtain ⟨own, us, vs, hown, hus, hargs, rfl⟩ := exprWrites_call hws
  obtain ⟨is, es, his, hes, rfl⟩ := listWrites_cons hargs
  have hes := listWrites_singleton hes
  simp only [List.append_subset] at hsub
  obtain ⟨⟨hcall, hleft⟩, hindex, hvalue⟩ := hsub
  have hoperands : Performs roles st arg (Foresees p roles paths st kept arg n W held)
      (eval p.names held (.call site (.member site' base prop) [index, value]))
      ((us ++ is) ++ es) := by
    rw [eval_set hset]
    refine (performs_keyed hsound harg ih ihindex hus his hleft hindex hkept).bind
      (ensures_foresees_keyed hsound harg ⟨us, hus, hleft⟩ ⟨is, his, hindex⟩ hkept) (fun a => ?_)
      fun a => (logs_eval _ _).bind fun v => logs_mapSet
    exact (ihvalue hkept es hes hvalue n W).first fun v => logs_mapSet
  rw [List.append_assoc, ← List.append_assoc us]
  refine Performs.append ?_ hoperands
  rcases callWrites_set hset hown with rfl | ⟨segments, s, hchain, hs, rfl⟩
  · exact .nil
  · exact (performs_set hsound harg hset hchain hs).pre fun m h => h.1

theorem performs_callDelete (hdelete : p.names.lookup prop = "delete") :
    Performs.Eval p roles paths st kept arg held
      (.call site (.member site' base prop) [index]) := by
  intro hkept ws hws hsub n W
  obtain ⟨own, us, vs, hown, hus, hargs, rfl⟩ := exprWrites_call hws
  have hvs := listWrites_singleton hargs
  simp only [List.append_subset] at hsub
  obtain ⟨⟨hcall, hleft⟩, hindex⟩ := hsub
  have hoperands : Performs roles st arg (Foresees p roles paths st kept arg n W held)
      (eval p.names held (.call site (.member site' base prop) [index])) (us ++ vs) := by
    rw [eval_delete hdelete]
    exact (performs_keyed hsound harg ih ihindex hus hvs hleft hindex hkept).first fun a =>
      logs_mapDelete
  rw [List.append_assoc]
  refine Performs.append ?_ hoperands
  rcases callWrites_delete hdelete hown with rfl | ⟨segments, s, hchain, hs, rfl⟩
  · exact .nil
  · exact (performs_delete hsound harg hdelete hchain hs).pre fun m h => h.1

theorem performs_placeIndex :
    Performs.EvalPlace p roles paths st kept arg held (.index site base index) := by
  intro hkept ws hws hsub n W
  rw [Procedure.exprWrites] at hws
  obtain ⟨us, hus, hws⟩ := except_bind_ok hws
  obtain ⟨vs, hvs, hws⟩ := except_bind_ok hws
  cases hws
  obtain ⟨hleft, hright⟩ := List.append_subset.mp hsub
  rw [place_index]
  exact (performs_keyed hsound harg ih ihindex hus hvs hleft hright hkept).first fun a =>
    (still_pure _).logs

theorem performs_placeGet (hget : p.names.lookup prop = "get") :
    Performs.EvalPlace p roles paths st kept arg held
      (.call site (.member site' base prop) [index]) := by
  intro hkept ws hws hsub n W
  obtain ⟨own, us, vs, hown, hus, hargs, rfl⟩ := exprWrites_call hws
  have hvs := listWrites_singleton hargs
  cases callWrites_other (readsOnly_get hget) hown
  obtain ⟨hleft, hright⟩ := List.append_subset.mp hsub
  rw [place_get hget]
  exact (performs_keyed hsound harg ih ihindex hus hvs hleft hright hkept).first fun a =>
    (still_pure _).logs

end Cases

theorem performs_all (hsound : st.Sound kept) (harg : st.Within kept arg) :
    (∀ held e, Performs.Eval p roles paths st kept arg held e) ∧
    (∀ held fields es, Performs.EvalEntries p roles paths st kept arg held fields es) ∧
    (∀ held es, Performs.EvalList p roles paths st kept arg held es) ∧
    ∀ held e, Performs.EvalPlace p roles paths st kept arg held e := by
  apply eval_induct p.names
  case literal => exact fun h => performs_none (exprWrites_literal h)
  case ident => exact performs_none (by rw [Procedure.exprWrites])
  case member => exact performs_member
  case index => exact performs_index hsound harg
  case set => exact fun hset ih ihindex ihvalue =>
    performs_callSet hsound harg ih ihindex ihvalue hset
  case delete => exact fun hdelete ih ihindex => performs_callDelete hsound harg ih ihindex hdelete
  case method => exact performs_method hsound harg
  case notCallable => exact fun h => performs_fail (h _)
  case assign => exact performs_assignment hsound harg
  case step => exact performs_step
  case binary => exact performs_binary hsound harg
  case unary => exact performs_unary
  case array => exact performs_array
  case object => exact performs_object
  case root => exact performs_root
  case field => exact performs_placeMember
  case item => exact performs_placeIndex hsound harg
  case entry => exact fun hget ih ihindex => performs_placeGet hsound harg ih ihindex hget
  case notAPlace => exact fun h => performs_notAPlace (h _)
  case nil => exact performs_nil
  case cons => exact performs_cons hsound harg
  case noEntries => exact performs_noEntries
  case addEntry => exact performs_entry hsound harg

end Expressions

/-! ### Statements -/

mutual

def Stmt.returns : Stmt → Bool
  | .ret _ _ => true
  | .block _ _ body => Stmt.someReturns body
  | _ => false

def Stmt.someReturns : List Stmt → Bool
  | [] => false
  | s :: rest => s.returns || Stmt.someReturns rest

end

mutual

/-- A statement without what stands behind a `return`. -/
def Stmt.live : Stmt → Stmt
  | .block span first body => .block span first (Stmt.liveList body)
  | s => s

/-- The statements up to the first one that returns. -/
def Stmt.liveList : List Stmt → List Stmt
  | [] => []
  | s :: rest => s.live :: if s.returns then [] else Stmt.liveList rest

end

/-- The writes of the body up to the first `return`. -/
def Procedure.liveWrites (p : Procedure) (roles : Roles) : Except AnalysisError (List WritePath) :=
  match p.body with
  | .expr value => p.exprWrites roles value
  | .block _ body => p.stmtsWrites roles (Stmt.liveList body)

section LiveWrites

variable {p : Procedure} {roles : Roles} {paths : List WritePath}

theorem liveWrites_subset :
    (∀ s ws, p.stmtWrites roles s = .ok ws →
      ∃ vs, p.stmtWrites roles s.live = .ok vs ∧ vs ⊆ ws) ∧
    ∀ ss ws, p.stmtsWrites roles ss = .ok ws →
      ∃ vs, p.stmtsWrites roles (Stmt.liveList ss) = .ok vs ∧ vs ⊆ ws := by
  apply Stmt.live.mutual_induct
  · intro span first body ih ws hws
    rw [Procedure.stmtWrites] at hws
    rw [Stmt.live, Procedure.stmtWrites]
    exact ih ws hws
  · intro s hs ws hws
    rw [Stmt.live]
    · exact ⟨ws, hws, List.Subset.refl ws⟩
    · exact hs
  · intro ws hws
    exact ⟨ws, hws, List.Subset.refl ws⟩
  · intro s rest ih ihrest ws hws
    rw [Procedure.stmtsWrites] at hws
    obtain ⟨us, hus, hws⟩ := except_bind_ok hws
    obtain ⟨vs, hvs, hws⟩ := except_bind_ok hws
    cases hws
    obtain ⟨us', hus', hus⟩ := ih us hus
    obtain ⟨vs', hvs', hvs⟩ := ihrest vs hvs
    -- What stands behind a statement that returns is left out.
    rw [Stmt.liveList, Procedure.stmtsWrites, hus']
    split
    · refine ⟨us', ?_, List.subset_append_of_subset_left vs hus⟩
      rw [Procedure.stmtsWrites]
      exact congrArg Except.ok (List.append_nil us')
    · refine ⟨us' ++ vs', ?_, ?_⟩
      · rw [hvs']
        rfl
      · exact List.append_subset.mpr ⟨List.subset_append_of_subset_left vs hus,
          List.subset_append_of_subset_right us hvs⟩

/-- A procedure with write paths has its live ones among them. -/
theorem exists_liveWrites (hroles : p.roles = .ok roles) (hpaths : p.writePaths = .ok paths) :
    ∃ live, p.liveWrites roles = .ok live ∧ live ⊆ paths := by
  rw [Procedure.writePaths] at hpaths
  obtain ⟨roles', hroles', hbind⟩ := except_bind_ok hpaths
  rw [hroles] at hroles'
  cases hroles'
  obtain ⟨writes, hwrites, hlast⟩ := except_bind_ok hbind
  cases hlast
  have hsub : writes ⊆ writes.eraseDups := fun w hw => List.mem_eraseDups.mpr hw
  rw [Procedure.bodyWrites] at hwrites
  rw [Procedure.liveWrites]
  cases hbody : p.body with
  | expr value =>
      rw [hbody] at hwrites
      exact ⟨writes, hwrites, hsub⟩
  | block first body =>
      rw [hbody] at hwrites
      obtain ⟨live, hlive, hlivesub⟩ := liveWrites_subset.2 body writes hwrites
      exact ⟨live, hlive, List.Subset.trans hlivesub hsub⟩

end LiveWrites

section Statements

open Run

variable {p : Procedure} {roles : Roles} {paths : List WritePath} {st : Store}
  {kept : List Value} {arg : Value} {n : ℕ} {W : List Write} {held : List Value}
  {m m' : Machine} {names : NameTable} {flow : Flow}

theorem inScope_ok {α : Type} {x : Run α} {a : α} (h : inScope x m = .ok a m') :
    ∃ m₁, x { m with scopes := [] :: m.scopes } = .ok a m₁ ∧
      m' = { m₁ with scopes := m₁.scopes.tail } := by
  rw [inScope] at h
  cases hx : x { m with scopes := [] :: m.scopes } with
  | ok b m₁ =>
      rw [hx] at h
      cases h
      exact ⟨m₁, rfl, rfl⟩
  | error e m₁ =>
      rw [hx] at h
      cases h

/-- Which statements return can be read off the text. -/
theorem exec_flow :
    (∀ (s : Stmt) (m : Machine) (flow : Flow) (m' : Machine), exec names held s m = .ok flow m' →
      flow = if s.returns then .returned else .next) ∧
    ∀ (ss : List Stmt) (m : Machine) (flow : Flow) (m' : Machine),
      execList names held ss m = .ok flow m' →
      flow = if Stmt.someReturns ss then .returned else .next := by
  apply stmts_induct
  case expr =>
    intro span value m flow m' h
    rw [exec] at h
    obtain ⟨v, m₁, -, h⟩ := bind_ok h
    cases h
    rfl
  case declare =>
    intro span name assignable initial m flow m' h
    cases initial with
    | some _ | none =>
        simp only [exec] at h
        obtain ⟨v, m₁, -, h⟩ := bind_ok h
        obtain ⟨_, m₂, -, h⟩ := bind_ok h
        cases h
        rfl
  case ret =>
    intro span value m flow m' h
    cases value with
    | some e =>
        simp only [exec] at h
        obtain ⟨v, m₁, -, h⟩ := bind_ok h
        cases h
        rfl
    | none =>
        rw [exec] at h
        cases h
        rfl
  case block =>
    intro span first body ih m flow m' h
    rw [exec] at h
    obtain ⟨m₁, h, -⟩ := inScope_ok h
    exact ih _ _ _ h
  case empty =>
    intro span m flow m' h
    rw [exec] at h
    cases h
    rfl
  case nil =>
    intro m flow m' h
    rw [execList] at h
    cases h
    rfl
  case cons =>
    intro s rest ih ihrest m flow m' h
    rw [execList] at h
    obtain ⟨first, m₁, hfirst, h⟩ := bind_ok h
    have hflow := ih _ _ _ hfirst
    rw [Stmt.someReturns]
    -- Only if the first statement does not return, the rest is run.
    cases hs : s.returns with
    | true =>
        rw [hs, if_pos rfl] at hflow
        cases hflow
        cases h
        rfl
    | false =>
        rw [hs, if_neg Bool.false_ne_true] at hflow
        cases hflow
        exact ihrest _ _ _ h

theorem Covered.subset {e : Expr} {ws : List WritePath} (h : Covered p roles paths e)
    (hws : p.exprWrites roles e = .ok ws) : ws ⊆ paths := by
  obtain ⟨vs, hvs, hsub⟩ := h
  rw [hws] at hvs
  cases hvs
  exact hsub

/-- An allowed statement and its live writes: a run of it performs them. -/
def Performs.Exec (p : Procedure) (roles : Roles) (paths : List WritePath) (st : Store)
    (kept : List Value) (arg : Value) (W : List Write) (held : List Value) (s : Stmt) : Prop :=
  (foresight p roles paths st arg).Allows s →
    ∀ ws, p.stmtWrites roles s.live = .ok ws → ∀ n, 2 ≤ n →
      Performs roles st arg (Foresees p roles paths st kept arg n W held) (exec p.names held s) ws

def Performs.ExecList (p : Procedure) (roles : Roles) (paths : List WritePath) (st : Store)
    (kept : List Value) (arg : Value) (W : List Write) (held : List Value) (ss : List Stmt) :
    Prop :=
  (foresight p roles paths st arg).AllowsAll ss →
    ∀ ws, p.stmtsWrites roles (Stmt.liveList ss) = .ok ws → ∀ n, 2 ≤ n →
      Performs roles st arg (Foresees p roles paths st kept arg n W held)
        (execList p.names held ss) ws

/-- After a statement that returns nothing is live, and nothing is run. -/
theorem Performs.ExecList.cons (hsound : st.Sound kept) (harg : st.Within kept arg)
    (hkept : kept ⊆ held) {s : Stmt} {rest : List Stmt}
    (ih : Performs.Exec p roles paths st kept arg W held s)
    (ihrest : Performs.ExecList p roles paths st kept arg W held rest) :
    Performs.ExecList p roles paths st kept arg W held (s :: rest) := by
  intro hallows ws hws n hn
  rw [Policy.AllowsAll] at hallows
  rw [Stmt.liveList, Procedure.stmtsWrites] at hws
  obtain ⟨us, hus, hws⟩ := except_bind_ok hws
  obtain ⟨vs, hvs, hws⟩ := except_bind_ok hws
  cases hws
  have hfirst := ih hallows.1 us hus n hn
  rw [execList]
  refine Performs.append (hfirst.first fun flow => ?_) ?_
  · cases flow with
    | returned => exact (still_pure _).logs
    | next => exact logs_execList held rest
  · intro m flow m' hm hrun
    obtain ⟨flow₁, m₁, hs, hrun⟩ := bind_ok hrun
    have hmid := ((supplied_invariant hsound).exec_all (enforced_foresight hsound harg)
      hkept).1 s hallows.1 n hn m hm
    rw [hs] at hmid
    -- Whether the rest is live and whether it is run depend on the text alone.
    cases hreturns : s.returns with
    | true =>
        rw [hreturns, if_pos rfl, Procedure.stmtsWrites] at hvs
        cases hvs
        exact fun _ hmem => absurd hmem List.not_mem_nil
    | false =>
        have hflow := exec_flow.1 s m flow₁ m₁ hs
        rw [hreturns, if_neg Bool.false_ne_true] at hflow hvs
        cases hflow
        exact ihrest hallows.2 vs hvs n hn m₁ flow m' hmid hrun

/-- The writes of the statements up to the first one that returns are performed. -/
theorem performs_exec (hsound : st.Sound kept) (harg : st.Within kept arg) (hkept : kept ⊆ held) :
    (∀ s, Performs.Exec p roles paths st kept arg W held s) ∧
    ∀ ss, Performs.ExecList p roles paths st kept arg W held ss := by
  have hI : Invariant (foresight p roles paths st arg) kept 2 (Supplied roles st kept arg) :=
    supplied_invariant hsound
  have heval : ∀ {e ws n}, Covered p roles paths e → p.exprWrites roles e = .ok ws →
      Performs roles st arg (Foresees p roles paths st kept arg n W held) (eval p.names held e) ws :=
    fun hcovered hws =>
      (performs_all hsound harg).1 held _ hkept _ hws (hcovered.subset hws) _ W
  apply stmts_induct
  case expr =>
    intro span value hallows ws hws n _
    rw [Policy.Allows] at hallows
    simp only [Stmt.live, Procedure.stmtWrites] at hws
    rw [exec]
    exact (heval hallows hws).first fun v => (still_pure _).logs
  case declare =>
    intro span name assignable initial hallows ws hws n _
    rw [Policy.Allows] at hallows
    simp only [Stmt.live, Procedure.stmtWrites] at hws
    split at hws
    · cases hws
    · cases initial with
      | some e =>
          simp only [exec]
          exact (heval (hallows.2 e rfl) hws).first fun v => (logs_define _ _ _).bind fun _ =>
            (still_pure _).logs
      | none =>
          cases hws
          exact .nil
  case ret =>
    intro span value hallows ws hws n _
    rw [Policy.Allows] at hallows
    simp only [Stmt.live, Procedure.stmtWrites] at hws
    cases value with
    | some e =>
        simp only [exec]
        exact (heval (hallows e rfl) hws).first fun v => (still_pure _).logs
    | none =>
        cases hws
        exact .nil
  case block =>
    intro span first body ih hallows ws hws n hn m flow m' hm hrun
    rw [Policy.Allows] at hallows
    simp only [Stmt.live, Procedure.stmtWrites] at hws
    rw [exec] at hrun
    obtain ⟨m₁, hbody, rfl⟩ := inScope_ok hrun
    -- The scope of the block is the one more that the bound allows for.
    exact ih hallows ws hws (n + 1) (Nat.le_succ_of_le hn) _ _ m₁
      ⟨hI.enter hm.1, by simp [hm.2.scopes], hm.2.since, hm.2.journal⟩ hbody
  case empty =>
    intro span _ ws hws n _
    cases hws
    exact .nil
  case nil =>
    intro _ ws hws n _
    cases hws
    exact .nil
  case cons => exact fun s rest => Performs.ExecList.cons hsound harg hkept

/-- A procedure that ends well has performed its writes up to the first `return`. -/
theorem performed_execute (hsound : st.Sound kept) (harg : st.Within kept arg)
    {captures : List (String × Value)} {state : Value} {arg' : Option Value} {st' : Store}
    (hkept : kept ⊆ p.spareArgument arg' ++ held)
    (hbody : (foresight p roles paths st arg).AllowsBody p.body)
    (hstart : Supplied roles st kept arg (p.spareArgument arg' ++ held)
      (p.initial captures state arg' st'))
    {ws : List WritePath} (hws : p.liveWrites roles = .ok ws)
    (hrun : p.execute held captures state arg' st' = .ok flow m) :
    ∀ path ∈ ws, Performed roles st arg m.writes path := by
  have hat : Foresees p roles paths st kept arg 2 [] (p.spareArgument arg' ++ held)
      (p.initial captures state arg' st') := ⟨hstart, rfl, List.suffix_refl [], trivial⟩
  rw [Procedure.execute] at hrun
  rw [Procedure.liveWrites] at hws
  cases hbody' : p.body with
  | expr value =>
      rw [hbody'] at hbody hws hrun
      rw [execBody] at hrun
      exact ((performs_all hsound harg).1 _ value hkept ws hws (Covered.subset hbody hws) 2 []).first
        (fun v => (still_pure _).logs) _ _ m hat hrun
  | block first body =>
      rw [hbody'] at hbody hws hrun
      rw [execBody] at hrun
      obtain ⟨m₁, hlist, rfl⟩ := inScope_ok hrun
      have hI : Invariant (foresight p roles paths st arg) kept 2 (Supplied roles st kept arg) :=
        supplied_invariant hsound
      exact (performs_exec hsound harg hkept).2 body hbody ws hws 3 (by omega) _ _ m₁
        ⟨hI.enter hat.1, rfl, List.suffix_refl [], trivial⟩ hlist

end Statements

end PathCopy
