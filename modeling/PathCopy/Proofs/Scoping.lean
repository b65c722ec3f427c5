import PathCopy.Proofs.Lookups
import PathCopy.Proofs.Points
import PathCopy.Proofs.Returns

/-!
Scoping. A block leaves the stack of scopes as it found it, however it ends: every scope around it
binds the names it bound before, and a binding that cannot be assigned has the value it had. So what
a procedure declares in its body is gone in the end, and its result is what the scope of the
parameters holds for the state.
-/

namespace PathCopy

/-! ### Bindings that persist -/

/-- What may become of a binding: it can be assigned as before, and it has its old value if it
cannot. -/
structure Binding.Persists (b b' : Binding) : Prop where
  assignable : b'.assignable = b.assignable
  value : b.assignable = false → b'.value = b.value

def Scope.Persists (s s' : Scope) : Prop :=
  ∀ name, Option.Rel Binding.Persists (s.find? name) (s'.find? name)

/-- There are as many scopes, and each of them persists. -/
def Scopes.Persist (ss ss' : Scopes) : Prop := List.Forall₂ Scope.Persists ss ss'

theorem Binding.persists_refl (b : Binding) : b.Persists b := ⟨rfl, fun _ => rfl⟩

theorem Binding.Persists.trans {b c d : Binding} (h : b.Persists c) (h' : c.Persists d) :
    b.Persists d where
  assignable := h'.assignable.trans h.assignable
  value hb := (h'.value (h.assignable.trans hb)).trans (h.value hb)

namespace Scope

variable {s s' t : Scope} {name : Name} {b : Binding}

theorem persists_refl (s : Scope) : s.Persists s := fun name => by
  cases s.find? name with
  | none => exact .none
  | some b => exact .some b.persists_refl

theorem Persists.trans (h : s.Persists s') (h' : s'.Persists t) : s.Persists t := fun name => by
  have hname := h name
  have hname' := h' name
  revert hname hname'
  cases s.find? name <;> cases s'.find? name <;> cases t.find? name <;> rintro (hb | _) (hb' | _)
  · exact .none
  · exact .some (hb.trans hb')

theorem persists_assign (hb : s.find? name = some b) (hassignable : b.assignable = true)
    (v : Value) : s.Persists (s.put name { b with value := v }) := fun other => by
  rw [find?_put]
  split
  · next hother =>
    subst hother
    rw [hb]
    exact .some ⟨rfl, fun hfalse => absurd (hassignable.symm.trans hfalse) (by decide)⟩
  · exact s.persists_refl other

theorem Persists.find? (h : s.Persists s') (hb : s.find? name = some b) :
    ∃ b', s'.find? name = some b' ∧ b.Persists b' := by
  have hname := h name
  rw [hb] at hname
  cases hs' : s'.find? name with
  | none =>
      rw [hs'] at hname
      cases hname
  | some b' =>
      rw [hs'] at hname
      cases hname with
      | some hb' => exact ⟨b', rfl, hb'⟩

theorem Persists.find?_eq (h : s.Persists s')
    (hconstant : ∀ name b, s.find? name = some b → b.assignable = false) (name : Name) :
    s'.find? name = s.find? name := by
  cases hb : s.find? name with
  | some b =>
      obtain ⟨⟨v', a'⟩, hb', hassignable, hvalue⟩ := h.find? hb
      cases hassignable
      cases hvalue (hconstant name b hb)
      exact hb'
  | none =>
      have hname := h name
      rw [hb] at hname
      cases hs' : s'.find? name with
      | none => rfl
      | some b' =>
          rw [hs'] at hname
          cases hname

end Scope

namespace Scopes

variable {ss ss' ts inner rest : Scopes} {name : Name} {b : Binding}

theorem persist_refl (ss : Scopes) : ss.Persist ss :=
  List.forall₂_same.mpr fun s _ => s.persists_refl

theorem Persist.trans (h : ss.Persist ss') (h' : ss'.Persist ts) : ss.Persist ts := by
  induction h generalizing ts with
  | nil => exact h'
  | cons hs _ ih =>
      cases h' with
      | cons hs' hrest => exact .cons (hs.trans hs') (ih hrest)

/-- Where the outer scopes are concerned, an assignment changes a value or nothing. -/
theorem setValue_append (hb : find? name (inner ++ rest) = some b)
    (hassignable : b.assignable = true) (v : Value) :
    ∃ inner' rest', setValue name v (inner ++ rest) = inner' ++ rest' ∧
      inner'.length = inner.length ∧ rest.Persist rest' := by
  induction inner with
  | nil =>
      refine ⟨[], setValue name v rest, rfl, rfl, ?_⟩
      induction rest with
      | nil => cases hb
      | cons s rest ih =>
          rw [List.nil_append] at hb ih
          rw [find?] at hb
          rw [setValue]
          cases hs : s.find? name with
          | some c =>
              simp only [hs] at hb
              cases hb
              exact .cons (Scope.persists_assign hs hassignable v) (persist_refl rest)
          | none =>
              simp only [hs] at hb
              exact .cons s.persists_refl (ih hb)
  | cons s inner ih =>
      rw [List.cons_append, find?] at hb
      rw [List.cons_append, setValue]
      cases hs : s.find? name with
      | some c => exact ⟨_ :: inner, rest, rfl, rfl, persist_refl rest⟩
      | none =>
          simp only [hs] at hb
          obtain ⟨inner', rest', heq, hlength, hrest⟩ := ih hb
          exact ⟨s :: inner', rest', congrArg (s :: ·) heq, congrArg (· + 1) hlength, hrest⟩

end Scopes

/-! ### Scopes around a run -/

/-- Inside the scopes that persist from `ss` there are `n` others at least. -/
def Machine.Around (ss : Scopes) (n : ℕ) (m : Machine) : Prop :=
  ∃ inner rest, m.scopes = inner ++ rest ∧ n ≤ inner.length ∧ ss.Persist rest

namespace Run

variable {α : Type} {names : NameTable} {held : List Value} {m : Machine} {ss : Scopes} {n : ℕ}

/-- The scopes around persist, where whatever declares a name stands in a scope of its own. -/
theorem around_invariant {π : Policy} (ss : Scopes) (n : ℕ)
    (hdeclare : ∀ name, π.declare name → 0 < n) :
    Invariant π [] (ss.length + n) fun _ => Machine.Around ss n where
  drop h _ _ := h
  scalar _ h := h
  child h _ _ := h
  lookup h _ := h
  alloc h _ := h
  -- A name is declared in the inner scopes only, of which there is one at least.
  define {vs m name v} assignable h hname _ := by
    obtain ⟨inner, rest, hscopes, hinner, hrest⟩ := h
    obtain ⟨s, inner, rfl⟩ : ∃ s tail, inner = s :: tail :=
      List.exists_cons_of_length_pos ((hdeclare name hname).trans_le hinner)
    refine ⟨s.put name ⟨v, assignable⟩ :: inner, rest, ?_, hinner, hrest⟩
    show m.scopes.define name ⟨v, assignable⟩ = _
    rw [hscopes]
    rfl
  wrote {vs new w m m'} h hwrote _ _ := by
    obtain ⟨inner, rest, hscopes, hinner, hrest⟩ := h
    cases hwrote with
    | @assigned v b hbound hassignable _ _ _ =>
        rw [hscopes] at hbound
        obtain ⟨inner', rest', heq, hlength, hrest'⟩ :=
          Scopes.setValue_append hbound hassignable v
        exact ⟨inner', rest', (congrArg _ hscopes).trans heq, hlength ▸ hinner, hrest.trans hrest'⟩
    | stored _ _ _ => exact ⟨inner, rest, hscopes, hinner, hrest⟩
  enter := by
    rintro vs m ⟨inner, rest, hscopes, hinner, hrest⟩
    exact ⟨[] :: inner, rest, congrArg ([] :: ·) hscopes, Nat.le_succ_of_le hinner, hrest⟩
  leave := by
    rintro vs m ⟨inner, rest, hscopes, hinner, hrest⟩ hlength
    rw [hscopes, List.length_append, ← hrest.length_eq] at hlength
    cases inner with
    | nil =>
        rw [List.length_nil] at hlength
        omega
    | cons s inner =>
        refine ⟨inner, rest, congrArg List.tail hscopes, ?_, hrest⟩
        rw [List.length_cons] at hlength
        omega

theorem persist_of_at {π : Policy} {W : List Write} {vs : List Value}
    (h : At π (fun _ => Machine.Around ss n) (ss.length + n) W vs m) :
    ss.Persist (m.scopes.drop n) := by
  obtain ⟨⟨inner, rest, hscopes, -, hrest⟩, hledger⟩ := h
  have hlength := hledger.scopes
  rw [hscopes, List.length_append, ← hrest.length_eq] at hlength
  rw [hscopes, List.drop_left' (by omega)]
  exact hrest

theorem at_start {π : Policy} (held : List Value) (hπ : Journal π.license m.writes)
    (inner : Scopes) (hm : m.scopes = inner ++ ss) :
    At π (fun _ => Machine.Around ss inner.length) (ss.length + inner.length) [] held m :=
  ⟨⟨inner, ss, hm, Nat.le_refl _, ss.persist_refl⟩, by rw [hm, List.length_append, Nat.add_comm],
    List.nil_suffix, hπ⟩

theorem persist_execList (body : List Stmt) (hm : m.scopes = [] :: ss) :
    ss.Persist (Machine.after (execList names held body m)).scopes.tail := by
  have hrun := ((around_invariant ss 1 fun _ _ => Nat.one_pos).exec_all (W := [])
    (enforced_free names _) (List.nil_subset held)).2 body (Policy.free_allows.2 body) _
    (Nat.le_refl _)
  have hstart := at_start held (ledger_free m).journal [[]] hm
  rw [← List.drop_one]
  cases hx : execList names held body m with
  | ok flow m' => exact persist_of_at (hrun.ok hstart hx)
  | error e m' => exact persist_of_at (hrun.error hstart hx)

/-- An expression declares nothing, so it keeps all scopes. -/
theorem persist_eval (e : Expr) (m : Machine) :
    m.scopes.Persist (Machine.after (eval names held e m)).scopes := by
  let π : Policy := ⟨fun _ => True, fun _ => False, fun _ _ => True⟩
  have hπ : Enforced π names fun _ => Machine.Around m.scopes 0 := { enforced_free names _ with }
  have hinvariant : Invariant π [] (m.scopes.length + 0) fun _ => Machine.Around m.scopes 0 :=
    around_invariant m.scopes 0 fun _ => False.elim
  have hrun := hinvariant.ensures_eval (W := []) (n := m.scopes.length + 0) hπ
    (List.nil_subset held) (e := e) trivial
  have hstart : At π (fun _ => Machine.Around m.scopes 0) (m.scopes.length + 0) [] held m :=
    at_start (π := π) held (ledger_free m).journal [] rfl
  cases hx : eval names held e m with
  | ok v m' => exact persist_of_at (hrun.ok hstart hx)
  | error e m' => exact persist_of_at (hrun.error hstart hx)

theorem persist_block (body : List Stmt) (m : Machine) :
    m.scopes.Persist (Machine.after (inScope (execList names held body) m)).scopes := by
  have hinside : m.scopes.Persist
      (Machine.after (execList names held body { m with scopes := [] :: m.scopes })).scopes.tail :=
    persist_execList body rfl
  rw [inScope]
  cases hx : execList names held body { m with scopes := [] :: m.scopes } with
  | ok flow m' =>
      rw [hx] at hinside
      exact hinside
  | error e m' =>
      rw [hx] at hinside
      exact hinside

theorem persist_execBody (body : ProcedureBody) (m : Machine) :
    m.scopes.Persist (Machine.after (execBody names held body m)).scopes := by
  cases body with
  | expr value =>
      rw [execBody, after_map]
      exact persist_eval value m
  | block first body => exact persist_block body m

end Run

/-! ### Procedures -/

/-- Whether a task is a block, inside the body of a procedure or as its body. -/
def Task.isBlock : Task → Bool
  | exec (.block _ _ _) => true
  | execBody (.block _ _) => true
  | _ => false

theorem Phase.persist_of_isBlock {names : NameTable} {ph : Phase} (h : ph.task.isBlock) :
    ph.machine.scopes.Persist
      (Machine.after (ph.task.run names ph.held ph.machine)).scopes := by
  obtain ⟨task, held, m⟩ := ph
  unfold Task.isBlock at h
  split at h
  · rename_i span first body htask
    cases htask
    rw [Task.run, Run.after_map, Run.exec]
    exact Run.persist_block body m
  · rename_i first body htask
    cases htask
    rw [Task.run, Run.after_map]
    exact Run.persist_execBody (.block first body) m
  · cases h

namespace Procedure

variable {p : Procedure} {held : List Value} {captures : List (String × Value)} {state : Value}
  {arg : Option Value} {st : Store}

theorem find?_parameterScope {s : Param} {rest : List Param} (hparams : p.params = s :: rest)
    (hdistinct : (p.params.map Param.name).Nodup) :
    (p.parameterScope state arg).find? s.name = some ⟨state, true⟩ := by
  rw [hparams] at hdistinct
  cases rest with
  | nil =>
      rw [parameterScope, hparams]
      exact if_pos rfl
  | cons a rest =>
      have hne : s.name ≠ a.name := fun h =>
        (List.nodup_cons.mp hdistinct).1 (List.mem_map.mpr ⟨a, List.mem_cons_self, h.symm⟩)
      simp only [parameterScope, hparams, Scope.find?_put, if_neg hne]
      exact if_pos rfl

theorem not_assignable_capture {name : Name} {b : Binding}
    (h : (p.captureScope captures).find? name = some b) : b.assignable = false := by
  induction captures using List.reverseRecOn with
  | nil => cases h
  | append_singleton captures c ih =>
      rw [captureScope, List.foldl_append, List.foldl_cons, List.foldl_nil] at h
      dsimp only at h
      split at h
      · rw [Scope.find?_put] at h
        split at h
        · cases h
          rfl
        · exact ih h
      · exact ih h

/-- Every block of a run leaves as many scopes as it found, whether it ends normally, returns or
fails; each binds its names as before, and constants and captures have their old values. Hence the
result of a procedure is what its parameter scope holds for the state parameter, under whatever
names the body declares others. -/
theorem scopes_persist (p : Procedure) (held : List Value) (captures : List (String × Value))
    (state : Value) (arg : Option Value) (st : Store) :
    (∀ ph, Relation.ReflTransGen (Phase.Calls p.names) (p.phase held captures state arg st) ph →
      ph.task.isBlock → ph.machine.scopes.Persist
        (Machine.after (ph.task.run p.names ph.held ph.machine)).scopes) ∧
    ∀ s rest flow m, p.params = s :: rest → (p.params.map Param.name).Nodup →
      p.execute held captures state arg st = .ok flow m →
      ∃ parameters outer v, m.scopes = [parameters, outer] ∧
        (p.parameterScope state arg).Persists parameters ∧
        (∀ name, outer.find? name = (p.captureScope captures).find? name) ∧
        (p.parameterScope state arg).find? s.name = some ⟨state, true⟩ ∧
        parameters.find? s.name = some ⟨v, true⟩ ∧
        p.run held captures state arg st = (.ok v, m.store) := by
  refine ⟨fun ph _ hblock => ph.persist_of_isBlock hblock, ?_⟩
  intro s rest flow m hparams hdistinct hexecute
  have hpersist : (p.initial captures state arg st).scopes.Persist (Machine.after (Run.execBody
      p.names (p.spareArgument arg ++ held) p.body (p.initial captures state arg st))).scopes :=
    Run.persist_execBody p.body _
  have hafter : Run.execBody p.names (p.spareArgument arg ++ held) p.body
      (p.initial captures state arg st) = .ok flow m := hexecute
  rw [hafter] at hpersist
  -- As many scopes are left as there were, so the inner one is the parameter scope still.
  obtain ⟨parameters, outer, hparameters, houter, hscopes⟩ :
      ∃ parameters outer, (p.parameterScope state arg).Persists parameters ∧
        (p.captureScope captures).Persists outer ∧ m.scopes = [parameters, outer] := by
    generalize hms :
      (Machine.after (.ok flow m : EStateM.Result EvalError Machine Flow)).scopes = ms at hpersist
    cases hpersist with
    | cons hparameters hrest =>
        cases hrest with
        | cons houter hrest =>
            cases hrest
            exact ⟨_, _, hparameters, houter, hms⟩
  have hstate : (p.parameterScope state arg).find? s.name = some ⟨state, true⟩ :=
    find?_parameterScope hparams hdistinct
  obtain ⟨⟨v, assignable⟩, hv, hassignable, -⟩ := hparameters.find? hstate
  cases hassignable
  refine ⟨parameters, outer, v, hscopes, hparameters,
    houter.find?_eq fun _ _ => not_assignable_capture, hstate, hv, ?_⟩
  rw [run.eq_def, hparams]
  simp only [hexecute, hscopes, Scopes.find?, hv, Option.map_some, Option.getD_some]

/-- A procedure that gives the names of its parameters to other values, and returns from inside. -/
def shade : String := "(s, a) => \x7b const k = 'x'; \x7b let s = \x7b\x7d; s.b = k; let a = s \x7d " ++
  "a = k; s.d = a; \x7b var s = a; return s \x7d s.e = k \x7d"

theorem shade_parses : (parse shade).toOption.isSome := by decide +kernel

theorem scopes_persist_shade :
    ((ofText shade shade_parses).phase [] [] (.node ⟨0⟩) none bare).task.isBlock ∧
    ((ofText shade shade_parses).params.map Param.name).Nodup ∧
    ∃ s rest m v parameters outer, (ofText shade shade_parses).params = s :: rest ∧
      (ofText shade shade_parses).execute [] [] (.node ⟨0⟩) none bare = .ok .returned m ∧
      ((ofText shade shade_parses).initial [] (.node ⟨0⟩) none bare).scopes.Persist m.scopes ∧
      m.scopes = [parameters, outer] ∧ parameters.find? s.name = some ⟨v, true⟩ ∧
      (ofText shade shade_parses).run [] [] (.node ⟨0⟩) none bare = (.ok v, m.store) ∧
      (m.store.property v "d").key? = some "x" := by
  obtain ⟨hblock, hdistinct, hreturns, hfield, hsome⟩ :
      ((ofText shade shade_parses).phase [] [] (.node ⟨0⟩) none bare).task.isBlock ∧
        ((ofText shade shade_parses).params.map Param.name).Nodup ∧
        (Run.outcome (Run.execBody (ofText shade shade_parses).names
          ((ofText shade shade_parses).spareArgument none ++ []) (ofText shade shade_parses).body)
          ((ofText shade shade_parses).initial [] (.node ⟨0⟩) none bare)).toOption =
            some .returned ∧
        (((ofText shade shade_parses).run [] [] (.node ⟨0⟩) none bare).1.toOption.bind
          fun v => (((ofText shade shade_parses).run [] [] (.node ⟨0⟩) none bare).2.property v
            "d").key?) = some "x" ∧
        (ofText shade shade_parses).params ≠ [] := by
    decide +kernel
  obtain ⟨s, rest, hparams⟩ := List.exists_cons_of_ne_nil hsome
  cases hexecute : (ofText shade shade_parses).execute [] [] (.node ⟨0⟩) none bare with
  | error e m =>
      rw [Run.outcome, ← execute, hexecute] at hreturns
      cases hreturns
  | ok flow m =>
      rw [Run.outcome, ← execute, hexecute] at hreturns
      obtain rfl := Option.some.inj hreturns
      obtain ⟨hblocks, hresult⟩ :=
        scopes_persist (ofText shade shade_parses) [] [] (.node ⟨0⟩) none bare
      have hscopes := hblocks _ .refl hblock
      obtain ⟨parameters, outer, v, hm, -, -, -, hv, hrun⟩ :=
        hresult s rest _ m hparams hdistinct hexecute
      rw [hrun] at hfield
      refine ⟨hblock, hdistinct, s, rest, m, v, parameters, outer, hparams, rfl, ?_, hm, hv, hrun,
        hfield⟩
      rw [phase, Task.run, Run.after_map] at hscopes
      have hafter : Run.execBody (ofText shade shade_parses).names
          ((ofText shade shade_parses).spareArgument none ++ []) (ofText shade shade_parses).body
          ((ofText shade shade_parses).initial [] (.node ⟨0⟩) none bare) = .ok .returned m :=
        hexecute
      rw [hafter] at hscopes
      exact hscopes

end Procedure

end PathCopy
