import PathCopy.Proofs.InPlace
import PathCopy.Proofs.Keys
import PathCopy.Proofs.Likeness

/-!
Straight-line statements as commands. An assignment through a chain of accesses, a `set` or a
`delete` is a command if the argument supplies its keys and its value is a scalar. The analysis
foresees exactly this command, and the parts of the statement evaluate to the parts of the command.
-/

namespace PathCopy

namespace Procedure

/-! ### Reading statements -/

/-- The key that a key expression spells for an argument. -/
def key? (p : Procedure) (roles : Roles) (st : Store) (arg : Value) (e : Expr) : Option String :=
  if e.hasFiniteKeys then (p.segment? roles e).bind fun s => (s.resolve st arg).toOption else none

/-- The steps along a chain of accesses that starts at the state. -/
def steps? (p : Procedure) (roles : Roles) (st : Store) (arg : Value) : Expr → Option (List Step)
  | .ident _ name => if name = roles.state then some [] else none
  | .member _ base property =>
    (p.steps? roles st arg base).map (· ++ [.key (p.nameText property)])
  | .index _ base key =>
    (p.steps? roles st arg base).bind fun steps =>
      (p.key? roles st arg key).map fun k => steps ++ [.key k]
  | .call _ (.member _ base property) [key] =>
    if p.nameText property = "get" then
      (p.steps? roles st arg base).bind fun steps =>
        (p.key? roles st arg key).map fun k => steps ++ [.entry k]
    else none
  | _ => none

/-- The scalar that an expression stands for: a literal, or what the argument or a field of it
holds. -/
def operand? (p : Procedure) (roles : Roles) (st : Store) (arg : Value) : Expr → Option Scalar
  | .number _ bits => some (.number (Float.ofBits bits))
  | .unary _ .neg (.number _ bits) => some (.number (-Float.ofBits bits))
  | .string _ text => some (.text (p.nameText text))
  | .bool _ b => some (.bool b)
  | .null _ => some .null
  | .undefined _ => some .undefined
  | e =>
    match p.segment? roles e with
    | some .whole => arg.scalar?
    | some (.named field) => if e.hasFiniteKeys then (st.property arg field).scalar? else none
    | _ => none

def keyed? (p : Procedure) (roles : Roles) (st : Store) (arg : Value) (base key : Expr) :
    Option (List Step × String) :=
  (p.steps? roles st arg base).bind fun steps =>
    (p.key? roles st arg key).map fun k => (steps, k)

/-- The command of an expression: `chain = e`, `chain.set(k, e)` or `chain.delete(k)`. -/
def command? (p : Procedure) (roles : Roles) (st : Store) (arg : Value) : Expr → Option Command
  | .assign _ .plain (.member _ base property) value =>
    (p.steps? roles st arg base).bind fun steps =>
      (p.operand? roles st arg value).map fun a => ⟨steps, p.nameText property, .assign a⟩
  | .assign _ .plain (.index _ base key) value =>
    (p.keyed? roles st arg base key).bind fun (steps, k) =>
      (p.operand? roles st arg value).map fun a => ⟨steps, k, .assign a⟩
  | .call _ (.member _ base property) [key, value] =>
    if p.nameText property = "set" then
      (p.keyed? roles st arg base key).bind fun (steps, k) =>
        (p.operand? roles st arg value).map fun a => ⟨steps, k, .mapSet a⟩
    else none
  | .call _ (.member _ base property) [key] =>
    if p.nameText property = "delete" then
      (p.keyed? roles st arg base key).map fun (steps, k) => ⟨steps, k, .mapDelete⟩
    else none
  | _ => none

def statement? (p : Procedure) (roles : Roles) (st : Store) (arg : Value) : Stmt → Option Command
  | .expr _ value => p.command? roles st arg value
  | _ => none

def commands? (p : Procedure) (roles : Roles) (st : Store) (arg : Value) :
    Option (List Command) :=
  match p.body with
  | .expr value => (p.command? roles st arg value).map ([·])
  | .block _ body => body.mapM (p.statement? roles st arg)

variable {p : Procedure} {roles : Roles} {st : Store} {arg : Value} {e : Expr} {k : String}
  {steps : List Step} {a : Scalar} {c : Command}

/-! ### What the analysis makes of them -/

theorem key?_segment (h : p.key? roles st arg e = some k) :
    ∃ s, p.segment? roles e = some s ∧ e.hasFiniteKeys ∧ s.resolve st arg = .ok k := by
  unfold key? at h
  split at h
  · next hfinite =>
    obtain ⟨s, hs, hk⟩ := Option.bind_eq_some_iff.mp h
    refine ⟨s, hs, hfinite, ?_⟩
    cases hresolve : s.resolve st arg with
    | error e =>
        rw [hresolve] at hk
        cases hk
    | ok l =>
        rw [hresolve] at hk
        cases hk
        rfl
  · cases h

theorem segment_of_segment? {s : Segment} (h : p.segment? roles e = some s) :
    p.segment roles e = .ok s := by
  rw [segment, h]

/-- A chain writes nothing, and its segments get the keys of its steps. -/
theorem steps?_chain (h : p.steps? roles st arg e = some steps) :
    ∃ segments, p.stateChain roles e = .ok (some segments) ∧ p.exprWrites roles e = .ok [] ∧
      List.Forall₂ (fun s k => Segment.resolve st arg s = .ok k) segments
        (steps.map Step.text) := by
  -- The place is followed from the outside. Each step adds one segment to those of its base.
  induction e using Procedure.steps?.induct p roles generalizing steps with
  | case1 site =>
      rw [steps?, if_pos rfl] at h
      cases h
      exact ⟨[], by rw [stateChain, if_pos rfl], by rw [exprWrites], .nil⟩
  | case2 site name hname =>
      rw [steps?, if_neg hname] at h
      cases h
  | case3 site base property ih =>
      rw [steps?] at h
      obtain ⟨inner, hinner, rfl⟩ := Option.map_eq_some_iff.mp h
      obtain ⟨segments, hchain, hwrites, hkeys⟩ := ih hinner
      refine ⟨segments ++ [.key (p.nameText property)], ?_, by rwa [exprWrites], ?_⟩
      · simp only [stateChain, hchain, bind, Except.bind]
      · rw [List.map_append]
        exact List.rel_append hkeys (.cons rfl .nil)
  | case4 site base key ih =>
      rw [steps?] at h
      obtain ⟨inner, hinner, hrest⟩ := Option.bind_eq_some_iff.mp h
      obtain ⟨k, hk, rfl⟩ := Option.map_eq_some_iff.mp hrest
      obtain ⟨segments, hchain, hwrites, hkeys⟩ := ih hinner
      obtain ⟨s, hs, -, hresolve⟩ := key?_segment hk
      refine ⟨segments ++ [s], ?_, ?_, ?_⟩
      · simp only [stateChain, hchain, segment_of_segment? hs, bind, Except.bind]
      · simp only [exprWrites, hwrites, exprWrites_of_segment? hs, bind, Except.bind,
          List.append_nil]
      · rw [List.map_append]
        exact List.rel_append hkeys (.cons hresolve .nil)
  | case5 site site' base property key hget ih =>
      rw [steps?, if_pos hget] at h
      obtain ⟨inner, hinner, hrest⟩ := Option.bind_eq_some_iff.mp h
      obtain ⟨k, hk, rfl⟩ := Option.map_eq_some_iff.mp hrest
      obtain ⟨segments, hchain, hwrites, hkeys⟩ := ih hinner
      obtain ⟨s, hs, -, hresolve⟩ := key?_segment hk
      refine ⟨segments ++ [s], ?_, ?_, ?_⟩
      · simp only [stateChain, hchain, hget, segment_of_segment? hs, bind, Except.bind]
      · simp only [exprWrites, callWrites, listWrites, hchain, hget, hwrites,
          exprWrites_of_segment? hs, bind, Except.bind, List.append_nil]
      · rw [List.map_append]
        exact List.rel_append hkeys (.cons hresolve .nil)
  | case6 site site' base property key hget =>
      rw [steps?, if_neg hget] at h
      cases h
  | case7 t hident hmember hindex hcall =>
      rw [steps?] at h
      · cases h
      · exact hident
      · exact hmember
      · exact hindex
      · exact hcall

theorem exprWrites_of_operand? (h : p.operand? roles st arg e = some a) :
    p.exprWrites roles e = .ok [] := by
  unfold operand? at h
  split at h
  · rw [exprWrites]
  · rw [exprWrites, exprWrites]
  · rw [exprWrites]
  · rw [exprWrites]
  · rw [exprWrites]
  · rw [exprWrites]
  · split at h
    · next hs => exact exprWrites_of_segment? hs
    · next hs => exact exprWrites_of_segment? hs
    · cases h

/-- The write behind a chain is at the keys of its steps and at the last key. -/
theorem keyed?_chain {base key : Expr} (h : p.keyed? roles st arg base key = some (steps, k)) :
    ∃ segments s, p.stateChain roles base = .ok (some segments) ∧
      p.exprWrites roles base = .ok [] ∧ p.segment roles key = .ok s ∧
      p.exprWrites roles key = .ok [] ∧ ∀ effect, WritePath.resolve st arg
        ⟨segments ++ [s], effect⟩ = .ok ⟨steps.map Step.text ++ [k], effect⟩ := by
  obtain ⟨inner, hinner, hrest⟩ := Option.bind_eq_some_iff.mp h
  obtain ⟨l, hl, heq⟩ := Option.map_eq_some_iff.mp hrest
  cases heq
  obtain ⟨segments, hchain, hwrites, hkeys⟩ := steps?_chain hinner
  obtain ⟨s, hs, -, hresolve⟩ := key?_segment hl
  refine ⟨segments, s, hchain, hwrites, segment_of_segment? hs, exprWrites_of_segment? hs,
    fun effect => ?_⟩
  rw [WritePath.resolve, mapM_of_forall₂ (List.rel_append hkeys (.cons hresolve .nil))]
  rfl

/-- The one write of the statement is that of its command. -/
theorem command?_writes (h : p.command? roles st arg e = some c) :
    ∃ path, p.exprWrites roles e = .ok [path] ∧ path.resolve st arg = .ok c.path := by
  unfold command? at h
  split at h
  · next site site' base property value =>
    obtain ⟨steps, hsteps, hrest⟩ := Option.bind_eq_some_iff.mp h
    obtain ⟨a, ha, rfl⟩ := Option.map_eq_some_iff.mp hrest
    obtain ⟨segments, hchain, -, hkeys⟩ := steps?_chain hsteps
    refine ⟨⟨segments ++ [.key (p.nameText property)], .assign⟩, ?_, ?_⟩
    · simp [exprWrites, stateChain, hchain, exprWrites_of_operand? ha, bind, Except.bind]
    · rw [WritePath.resolve, mapM_of_forall₂ (List.rel_append hkeys (.cons rfl .nil))]
      rfl
  · next site site' base key value =>
    obtain ⟨⟨steps, k⟩, hkeyed, hrest⟩ := Option.bind_eq_some_iff.mp h
    obtain ⟨a, ha, rfl⟩ := Option.map_eq_some_iff.mp hrest
    obtain ⟨segments, s, hchain, -, hs, -, hresolve⟩ := keyed?_chain hkeyed
    refine ⟨⟨segments ++ [s], .assign⟩, ?_, hresolve _⟩
    simp [exprWrites, stateChain, hchain, hs, exprWrites_of_operand? ha, bind, Except.bind]
  · next site site' base property key value =>
    split at h
    · next hset =>
      obtain ⟨⟨steps, k⟩, hkeyed, hrest⟩ := Option.bind_eq_some_iff.mp h
      obtain ⟨a, ha, rfl⟩ := Option.map_eq_some_iff.mp hrest
      obtain ⟨segments, s, hchain, hwrites, hs, hkey, hresolve⟩ := keyed?_chain hkeyed
      refine ⟨⟨segments ++ [s], .mapSet⟩, ?_, hresolve _⟩
      simp [exprWrites, callWrites, listWrites, hchain, hset, hwrites, hs, hkey,
        exprWrites_of_operand? ha, bind, Except.bind]
    · cases h
  · next site site' base property key =>
    split at h
    · next hdelete =>
      obtain ⟨⟨steps, k⟩, hkeyed, rfl⟩ := Option.map_eq_some_iff.mp h
      obtain ⟨segments, s, hchain, hwrites, hs, hkey, hresolve⟩ := keyed?_chain hkeyed
      refine ⟨⟨segments ++ [s], .mapDelete⟩, ?_, hresolve _⟩
      simp [exprWrites, callWrites, listWrites, hchain, hdelete, hwrites, hs, hkey, bind,
        Except.bind]
    · cases h
  · cases h

/-- The writes of a row of statements are those of its commands, in order. -/
theorem commands?_writes {cs : List Command} (h : p.commands? roles st arg = some cs) :
    ∃ writes, p.bodyWrites roles = .ok writes ∧
      List.Forall₂ (fun path c => WritePath.resolve st arg path = .ok (Command.path c)) writes
        cs := by
  cases hbody : p.body with
  | expr value =>
      simp only [commands?, hbody] at h
      obtain ⟨c, hc, rfl⟩ := Option.map_eq_some_iff.mp h
      obtain ⟨path, hwrites, hresolve⟩ := command?_writes hc
      exact ⟨[path], by rwa [bodyWrites, hbody], .cons hresolve .nil⟩
  | block first body =>
      simp only [commands?, bodyWrites, hbody] at h ⊢
      clear hbody
      induction body generalizing cs with
      | nil =>
          cases h
          exact ⟨[], by rw [stmtsWrites], .nil⟩
      | cons s body ih =>
          rw [List.mapM_cons] at h
          obtain ⟨c, hc, hrest⟩ := Option.bind_eq_some_iff.mp h
          obtain ⟨cs, hcs, hlast⟩ := Option.bind_eq_some_iff.mp hrest
          cases hlast
          obtain ⟨writes, hwrites, hall⟩ := ih hcs
          cases s with
          | expr span value =>
              obtain ⟨path, hvalue, hresolve⟩ := command?_writes hc
              refine ⟨path :: writes, ?_, .cons hresolve hall⟩
              simp [stmtsWrites, stmtWrites, hvalue, hwrites, bind, Except.bind]
          | _ => cases hc

/-- The key paths of a row of statements are those of its commands. -/
theorem mem_resolved_iff {paths : List WritePath} {resolved : List KeyPath} {cs : List Command}
    {arg : Option Value} (hroles : p.roles = .ok roles) (hpaths : p.writePaths = .ok paths)
    (hresolve : resolvePaths st arg paths = .ok resolved)
    (hcommands : p.commands? roles st (arg.getD .undefined) = some cs) (kp : KeyPath) :
    kp ∈ resolved ↔ kp ∈ cs.map Command.path := by
  obtain ⟨writes, hwrites, hall⟩ := commands?_writes hcommands
  obtain rfl : paths = writes.eraseDups := by
    simp only [writePaths, hroles, hwrites, bind, Except.bind, Except.ok.injEq] at hpaths
    exact hpaths.symm
  rw [List.mem_map]
  constructor
  · intro hkp
    obtain ⟨path, hpath, hpathok⟩ := exists_of_mem_resolvePaths hresolve hkp
    obtain ⟨c, hc, hcok⟩ := exists_of_forall₂ hall (List.mem_eraseDups.mp hpath)
    exact ⟨c, hc, Except.ok.inj (hcok.symm.trans hpathok)⟩
  · rintro ⟨c, hc, rfl⟩
    obtain ⟨path, hpath, hpathok⟩ := exists_of_forall₂ hall.flip hc
    obtain ⟨kp, hkp, hkpok⟩ := exists_of_forall₂ (forall₂_of_mapM hresolve)
      (List.mem_eraseDups.mpr hpath)
    rwa [← Except.ok.inj (hkpok.symm.trans hpathok)]

/-! ### What they evaluate to -/

/-- The parameter of the argument, if there is one, holds a text, a number or a record, and nothing
below it has changed since the keys were read. -/
structure Supplies (roles : Roles) (st : Store) (arg : Value) (m : Machine) : Prop where
  bound : ∀ name, roles.args = some name → ∃ b, m.scopes.find? name = some b ∧ b.value = arg
  agree : st.AgreeBelow m.store arg
  kind : roles.args.isSome → st.kind arg ∈ [Kind.string, .number, .record]

variable {m : Machine} {s : Segment} {held : List Value}

theorem eval_whole (h : p.segment? roles e = some .whole) (hm : Supplies roles st arg m) :
    Run.eval p.names held e m = .ok arg m := by
  cases denotes_iff.mpr h with
  | args site hargs =>
      rw [Run.eval]
      exact lookup_args hargs hm.bound

theorem eval_named {field : String} (held : List Value)
    (h : p.segment? roles e = some (.named field))
    (hfinite : e.hasFiniteKeys) (hm : Supplies roles st arg m) :
    roles.args.isSome ∧ ∃ span, Run.eval p.names held e m = Run.property arg field span m := by
  obtain ⟨name, span, span', hargs, heval⟩ := (denotes_iff.mpr h).eval_named held hfinite
  refine ⟨Option.isSome_of_eq_some hargs, span', ?_⟩
  rw [heval, Run.bind_apply, lookup_args hargs hm.bound]

/-- An argument that can supply anything has properties. -/
theorem Supplies.isNullish (hm : Supplies roles st arg m) (hargs : roles.args.isSome) :
    (m.store.kind arg).isNullish = false := by
  rw [hm.agree.kind_eq (Store.reaches_refl st arg)]
  have hkind := hm.kind hargs
  simp only [List.mem_cons, List.not_mem_nil, or_false] at hkind
  rcases hkind with hkind | hkind | hkind <;> rw [hkind] <;> rfl

theorem Supplies.property {field : String} (hm : Supplies roles st arg m)
    (hargs : roles.args.isSome) (span : Span) :
    Run.property arg field span m = .ok (st.property arg field) m := by
  rw [Run.property, Run.bind_apply, Run.get_apply]
  dsimp only
  rw [hm.isNullish hargs, if_neg Bool.false_ne_true, hm.agree.property_eq]
  rfl

theorem Supplies.mapEntries? (hm : Supplies roles st arg m) (hargs : roles.args.isSome) :
    st.mapEntries? arg = none := by
  have hkind := hm.kind hargs
  cases arg with
  | scalar a => rfl
  | node r =>
      rw [Store.kind] at hkind
      rw [Store.mapEntries?]
      cases hbody : st.body r with
      | map entries =>
          rw [hbody, Body.kind] at hkind
          exact absurd hkind (by decide)
      | _ => rfl

/-- The key expression evaluates to the key that the argument supplies. -/
theorem key?_eval (h : p.key? roles st arg e = some k) (hm : Supplies roles st arg m) :
    p.evalKey held e m = .ok k m := by
  obtain ⟨s, hs, hfinite, hresolve⟩ := key?_segment h
  have hspells : s.Spells st arg k := by
    refine (Segment.spells_iff_of_resolve hresolve).mpr ?_
    rintro field entries rfl hentries
    rw [hm.mapEntries? (eval_named [] hs hfinite hm).1] at hentries
    cases hentries
  refine (evalKey_iff hs hm.bound).mpr ⟨hfinite, ?_⟩
  cases s with
  | key text => exact hspells
  | whole => exact hspells
  | named field =>
      rw [Segment.Spells, hm.agree.property_eq]
      exact hspells

theorem scalar?_eq_some {v : Value} (h : v.scalar? = some a) : v = .scalar a := by
  cases v with
  | scalar b => exact congrArg Value.scalar (Option.some.inj h)
  | node r => cases h

theorem operand?_eval (h : p.operand? roles st arg e = some a) (hm : Supplies roles st arg m) :
    Run.eval p.names held e m = .ok (.scalar a) m := by
  unfold operand? at h
  split at h
  · cases h
    rfl
  · cases h
    simp only [Run.eval, pure_bind]
    rfl
  · cases h
    rfl
  · cases h
    rfl
  · cases h
    rfl
  · cases h
    rfl
  · split at h
    · next hs =>
      rw [eval_whole hs hm, scalar?_eq_some h]
    · next field hs =>
      split at h
      · next hfinite =>
        obtain ⟨hargs, span, heval⟩ := eval_named held hs hfinite hm
        rw [heval, hm.property hargs, scalar?_eq_some h]
      · cases h
    · cases h

theorem keyed_eval {base key : Expr} {l : Place} (hbase : Run.place p.names held base m = .ok l m)
    (hkey : p.evalKey held key m = .ok k m) :
    Run.keyed p.names held base key m = .ok (l, k) m := by
  have hrun : (p.evalKey held key >>= fun k => pure (l, k)) m = .ok (l, k) m := by
    rw [Run.bind_apply, hkey]
    rfl
  rw [Run.keyed, Run.bind_apply, hbase]
  rwa [evalKey, bind_assoc] at hrun

theorem steps?_place (h : p.steps? roles st arg e = some steps) (hm : Supplies roles st arg m) :
    Run.place p.names held e m = .ok ⟨roles.state, steps⟩ m := by
  induction e using Procedure.steps?.induct p roles generalizing steps with
  | case1 site =>
      rw [steps?, if_pos rfl] at h
      cases h
      rfl
  | case2 site name hname =>
      rw [steps?, if_neg hname] at h
      cases h
  | case3 site base property ih =>
      rw [steps?] at h
      obtain ⟨inner, hinner, rfl⟩ := Option.map_eq_some_iff.mp h
      rw [Run.place, Run.bind_apply, ih hinner]
      rfl
  | case4 site base key ih =>
      rw [steps?] at h
      obtain ⟨inner, hinner, hrest⟩ := Option.bind_eq_some_iff.mp h
      obtain ⟨k, hk, rfl⟩ := Option.map_eq_some_iff.mp hrest
      rw [Run.place_index, Run.bind_apply, keyed_eval (ih hinner) (key?_eval hk hm)]
      rfl
  | case5 site site' base property key hget ih =>
      rw [steps?, if_pos hget] at h
      obtain ⟨inner, hinner, hrest⟩ := Option.bind_eq_some_iff.mp h
      obtain ⟨k, hk, rfl⟩ := Option.map_eq_some_iff.mp hrest
      rw [Run.place_get hget, Run.bind_apply, keyed_eval (ih hinner) (key?_eval hk hm)]
      rfl
  | case6 site site' base property key hget =>
      rw [steps?, if_neg hget] at h
      cases h
  | case7 t hident hmember hindex hcall =>
      rw [steps?] at h
      · cases h
      · exact hident
      · exact hmember
      · exact hindex
      · exact hcall

theorem keyed?_eval {base key : Expr} (h : p.keyed? roles st arg base key = some (steps, k))
    (hm : Supplies roles st arg m) :
    Run.keyed p.names held base key m = .ok (⟨roles.state, steps⟩, k) m := by
  obtain ⟨inner, hinner, hrest⟩ := Option.bind_eq_some_iff.mp h
  obtain ⟨l, hl, heq⟩ := Option.map_eq_some_iff.mp hrest
  cases heq
  exact keyed_eval (steps?_place hinner hm) (key?_eval hl hm)

end Procedure

end PathCopy
