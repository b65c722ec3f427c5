import PathCopy.Proofs.Sharing
import PathCopy.Proofs.Statements

/-!
Straight-line updates. The body of such an update is a row of commands on the state: assignments
through chains of accesses, `set` and `delete`. The update succeeds exactly when the commands
succeed one after another on the tree of the root, and its result is the tree that they give. It
never meets a frozen or a shared node.
-/

namespace PathCopy

open Store

/-! ### Writes of a run -/

namespace Store

variable {st : Store} {counts : Array ℕ} {v new : Value} {key : String}

theorem mapSet_of_kind_ne (h : st.kind v ≠ .map) :
    st.mapSet counts v key new = .error (.notAContainer (st.kind v) key) := by
  cases v with
  | scalar a => rfl
  | node r =>
      rw [kind] at h ⊢
      rw [mapSet]
      cases hbody : st.body r with
      | map entries =>
          rw [hbody] at h
          exact absurd rfl h
      | _ => rfl

theorem mapDelete_of_kind_ne (h : st.kind v ≠ .map) :
    st.mapDelete counts v key = .error (.notAContainer (st.kind v) key) := by
  cases v with
  | scalar a => rfl
  | node r =>
      rw [kind] at h ⊢
      rw [mapDelete]
      cases hbody : st.body r with
      | map entries =>
          rw [hbody] at h
          exact absurd rfl h
      | _ => rfl

end Store

namespace Run

variable {α β : Type} {names : NameTable} {held : List Value} {m : Machine} {b : Binding}
  {name : Name} {counts : Array ℕ} {steps : List Step} {k : String} {span : Span} {a : Scalar}
  {x : Value → Except WriteError Store} {run : Value → Run α}

/-- A run does a write to the store: it goes through if the write does, and keeps its store. If the
write is refused the run fails, and finds fault with a frozen or a shared node only if the write
does. -/
def Answers (m : Machine) : Except WriteError Store → EStateM.Result EvalError Machine α → Prop
  | .ok s, .ok _ m' => m'.scopes = m.scopes ∧ m'.store = s
  | .error e, .error f _ =>
    (f.fault = .frozenWrite → e = .frozen) ∧ (f.fault = .sharedWrite → e = .shared)
  | _, _ => False

theorem Answers.then_pure {y : Except WriteError Store} {run : Run α} (h : Answers m y (run m))
    (b : β) : Answers m y ((run >>= fun _ => pure b) m) := by
  rw [bind_apply]
  cases hrun : run m with
  | ok a m' =>
      rw [hrun] at h
      cases y <;> exact h
  | error f m' =>
      rw [hrun] at h
      cases y <;> exact h

theorem answers_error (e : WriteError) (span : Span) (m' : Machine) :
    Answers (α := α) m (.error e) (.error ⟨.ofWrite e, span⟩ m') := by
  cases e <;> simp [Answers, EvalFault.ofWrite]

theorem answers_keep (w : Write) (y : Except WriteError Store) :
    Answers m y (keep span w y m) := by
  cases y with
  | ok s => exact ⟨rfl, rfl⟩
  | error e => exact answers_error e span m

theorem answers_reach (h : m.scopes.find? name = some b) (hrun : ∀ v, Answers m (x v) (run v m)) :
    Answers m (m.store.follow counts b.value steps >>= x)
      ((reach names counts name steps span >>= run) m) := by
  rw [reach, bind_assoc, bind_apply, lookup_bound h]
  cases hfollow : m.store.follow counts b.value steps with
  | ok v =>
      simp only [bind_apply, get_apply, hfollow]
      exact hrun v
  | error e =>
      simp only [bind_apply, get_apply, hfollow]
      exact answers_error e span m

/-- At a value that is no map the call of a method fails in its own way. -/
theorem answers_reachMap {method : String} {arity : ℕ} (h : m.scopes.find? name = some b)
    (hrun : ∀ v, m.store.kind v = .map → Answers m (x v) (run v m))
    (hother : ∀ v, m.store.kind v ≠ .map →
      x v = .error (.notAContainer (m.store.kind v) k)) :
    Answers m (m.store.follow counts b.value steps >>= x)
      ((reachMap names counts ⟨name, steps⟩ method arity span >>= run) m) := by
  rw [reachMap, bind_assoc]
  refine answers_reach h fun v => ?_
  rw [bind_assoc, bind_apply, get_apply]
  dsimp only
  by_cases hmap : m.store.kind v = .map
  · rw [if_pos hmap, pure_bind]
    exact hrun v hmap
  · rw [if_neg hmap, hother v hmap]
    split <;> exact ⟨nofun, nofun⟩

theorem answers_writePlace (h : m.scopes.find? name = some b) :
    Answers m (m.store.perform (m.store.handles (m.scopes.values ++ .scalar a :: held)) b.value
        ⟨steps, k, .assign a⟩)
      (writePlace names held ⟨name, steps ++ [.key k]⟩ (.scalar a) span m) := by
  simp only [writePlace, List.getLast?_concat, List.dropLast_concat]
  rw [bind_apply, handles_apply]
  refine answers_reach h fun v => ?_
  rw [bind_apply, get_apply]
  exact answers_keep _ _

theorem answers_mapSet (h : m.scopes.find? name = some b) :
    Answers m (m.store.perform (m.store.handles (m.scopes.values ++ .scalar a :: held)) b.value
        ⟨steps, k, .mapSet a⟩)
      (mapSet names held ⟨name, steps⟩ k (.scalar a) span m) := by
  rw [mapSet, bind_apply, handles_apply]
  refine answers_reachMap h (fun v _ => ?_) fun v hv => mapSet_of_kind_ne hv
  rw [bind_apply, get_apply]
  exact (answers_keep _ _).then_pure v

theorem answers_mapDelete (h : m.scopes.find? name = some b) :
    Answers m (m.store.perform (m.store.handles (m.scopes.values ++ held)) b.value
        ⟨steps, k, .mapDelete⟩)
      (mapDelete names held ⟨name, steps⟩ k span m) := by
  rw [mapDelete, bind_apply, handles_apply]
  refine answers_reachMap (k := k) h (fun v _ => ?_) fun v hv => ?_
  · rw [bind_apply, get_apply]
    dsimp only [Store.act]
    cases hdelete : m.store.mapDelete (m.store.handles (m.scopes.values ++ held)) v k with
    | ok result => exact ⟨rfl, rfl⟩
    | error e => exact answers_error e span m
  · rw [Store.act, mapDelete_of_kind_ne hv]
    rfl

end Run

namespace Procedure

variable {p : Procedure} {roles : Roles} {st : Store} {arg : Value} {m : Machine} {e : Expr}
  {c : Command} {b : Binding}

/-- A statement writes the store as its command does. While it writes, it holds the scalars of the
command beside the handles it was given. -/
theorem answers_command (h : p.command? roles st arg e = some c) (hm : Supplies roles st arg m)
    (hb : m.scopes.find? roles.state = some b) (held : List Value) :
    ∃ own : List Scalar, Run.Answers m
      (m.store.perform (m.store.handles (m.scopes.values ++ (own.map Value.scalar ++ held))) b.value
        c)
      (Run.eval p.names held e m) := by
  unfold command? at h
  split at h
  · next site site' base property value =>
    obtain ⟨steps, hsteps, hrest⟩ := Option.bind_eq_some_iff.mp h
    obtain ⟨a, ha, rfl⟩ := Option.map_eq_some_iff.mp hrest
    -- The scalar is held as the operand, and once more as what is written.
    refine ⟨[a, a], ?_⟩
    simp only [Run.eval, Run.place, bind_assoc, pure_bind]
    rw [Run.bind_apply, steps?_place hsteps hm]
    dsimp only
    rw [Run.bind_apply, operand?_eval ha hm]
    exact (Run.answers_writePlace hb).then_pure _
  · next site site' base key value =>
    obtain ⟨⟨steps, k⟩, hkeyed, hrest⟩ := Option.bind_eq_some_iff.mp h
    obtain ⟨a, ha, rfl⟩ := Option.map_eq_some_iff.mp hrest
    refine ⟨[a, a], ?_⟩
    simp only [Run.eval, Run.place_index, bind_assoc, pure_bind]
    rw [Run.bind_apply, keyed?_eval hkeyed hm]
    dsimp only
    rw [Run.bind_apply, operand?_eval ha hm]
    exact (Run.answers_writePlace hb).then_pure _
  · next site site' base property key value =>
    split at h
    · next hset =>
      obtain ⟨⟨steps, k⟩, hkeyed, hrest⟩ := Option.bind_eq_some_iff.mp h
      obtain ⟨a, ha, rfl⟩ := Option.map_eq_some_iff.mp hrest
      refine ⟨[a], ?_⟩
      rw [Run.eval_set hset, Run.bind_apply, keyed?_eval hkeyed hm]
      dsimp only
      rw [Run.bind_apply, operand?_eval ha hm]
      exact Run.answers_mapSet hb
    · cases h
  · next site site' base property key =>
    split at h
    · next hdelete =>
      obtain ⟨⟨steps, k⟩, hkeyed, rfl⟩ := Option.map_eq_some_iff.mp h
      refine ⟨[], ?_⟩
      rw [Run.eval_delete hdelete, Run.bind_apply, keyed?_eval hkeyed hm]
      exact Run.answers_mapDelete hb
    · cases h
  · cases h

end Procedure

/-! ### Rows of commands -/

/-- A step on trees and a run: both go through, with `P` afterwards, or both fail, and the run not
because of a frozen or a shared node. -/
def Accords {α : Type} (P : Template → Machine → Prop) :
    Option Template → EStateM.Result EvalError Machine α → Prop
  | some t, .ok _ m => P t m
  | none, .error e _ => e.fault ≠ .sharedWrite ∧ e.fault ≠ .frozenWrite
  | _, _ => False

theorem Accords.bind {α β : Type} {P Q : Template → Machine → Prop} {o : Option Template}
    {f : Template → Option Template} {run : Run α} {next : α → Run β} {m : Machine}
    (h : Accords P o (run m)) (hnext : ∀ t a m', P t m' → Accords Q (f t) (next a m')) :
    Accords Q (o.bind f) ((run >>= next) m) := by
  rw [Run.bind_apply]
  cases hrun : run m with
  | ok a m' =>
      rw [hrun] at h
      cases o with
      | none => exact h.elim
      | some t => exact hnext t a m' h
  | error e m' =>
      rw [hrun] at h
      cases o with
      | none => exact h
      | some t => exact h.elim

theorem Accords.mono {α : Type} {P Q : Template → Machine → Prop} {o : Option Template}
    {result : EStateM.Result EvalError Machine α} (h : Accords P o result)
    (hPQ : ∀ t m, P t m → Q t m) : Accords Q o result := by
  cases o with
  | none => cases result <;> exact h
  | some t =>
      cases result with
      | ok a m => exact hPQ t m h
      | error e m => exact h.elim

theorem Accords.inScope {α : Type} {P Q : Template → Machine → Prop} {o : Option Template}
    {run : Run α} {m : Machine} (h : Accords P o (run { m with scopes := [] :: m.scopes }))
    (hleave : ∀ t m', P t m' → Q t { m' with scopes := m'.scopes.tail }) :
    Accords Q o (Run.inScope run m) := by
  rw [Run.inScope]
  cases hrun : run { m with scopes := [] :: m.scopes } with
  | ok a m' =>
      rw [hrun] at h
      cases o with
      | none => exact h.elim
      | some t => exact hleave t m' h
  | error e m' =>
      rw [hrun] at h
      cases o with
      | none => exact h
      | some t => exact h.elim

/-- A run that does a write accords with what the write realizes. -/
theorem Realizes.accords {α : Type} {P : Template → Store → Prop} {o : Option Template}
    {x : Except WriteError Store} {m : Machine} {result : EStateM.Result EvalError Machine α}
    (h : Realizes P o x) (hresult : Run.Answers m x result) :
    Accords (fun t m' => m'.scopes = m.scopes ∧ P t m'.store) o result := by
  cases o with
  | none =>
      cases x with
      | ok s => exact h.elim
      | error e =>
          cases result with
          | ok a m' => exact hresult.elim
          | error f m' => exact ⟨fun hf => h.2 (hresult.2 hf), fun hf => h.1 (hresult.1 hf)⟩
  | some t =>
      cases x with
      | error e => exact h.elim
      | ok s =>
          cases result with
          | error f m' => exact hresult.elim
          | ok a m' =>
              obtain ⟨hscopes, rfl⟩ := hresult
              exact ⟨hscopes, h⟩

/-- Scopes in which a row of commands runs: the state is bound to `v` and the argument to `arg`, and
whatever else is held, by the scopes or in `held`, is older than the copy. -/
structure Stage (roles : Roles) (st : Store) (kept held : List Value) (arg v : Value)
    (ss : Scopes) : Prop where
  sound : st.Sound kept
  state : ∃ b, ss.find? roles.state = some b ∧ b.value = v
  bound : ∀ name, roles.args = some name → ∃ b, ss.find? name = some b ∧ b.value = arg
  others : ∃ rest, ss.values.Perm (v :: rest) ∧ ∀ u ∈ rest, st.Within kept u
  held : ∀ u ∈ held, st.Within kept u
  within : st.Within kept arg
  kind : roles.args.isSome → st.kind arg ∈ [Kind.string, .number, .record]

/-- The machine between two commands: the state is open for further commands, and `t` describes
it. -/
structure Between (st : Store) (kept : List Value) (paths : List KeyPath) (v : Value) (ss : Scopes)
    (t : Template) (m : Machine) : Prop where
  scopes : m.scopes = ss
  opened : st.Opened kept paths v m.store
  tree : t.Describes m.store v

namespace Stage

variable {p : Procedure} {roles : Roles} {st : Store} {kept held : List Value} {arg v : Value}
  {ss : Scopes} {paths : List KeyPath} {t : Template} {m : Machine} {c : Command}
  {cs : List Command}

theorem supplies (h : Stage roles st kept held arg v ss) (hm : Between st kept paths v ss t m) :
    Procedure.Supplies roles st arg m where
  bound := hm.scopes ▸ h.bound
  agree := h.sound.agreeBelow hm.opened.grown.toExtends h.within
  kind := h.kind

theorem enter (h : Stage roles st kept held arg v ss) :
    Stage roles st kept held arg v ([] :: ss) :=
  ⟨h.sound, h.state, h.bound, h.others, h.held, h.within, h.kind⟩

theorem command {e : Expr} (h : Stage roles st kept held arg v ss)
    (hc : p.command? roles st arg e = some c) (hpath : c.path ∈ paths)
    (hm : Between st kept paths v ss t m) :
    Accords (Between st kept paths v ss) (t.perform c) (Run.eval p.names held e m) := by
  obtain ⟨b, hb, rfl⟩ := h.state
  obtain ⟨rest, hperm, hrest⟩ := h.others
  rw [← hm.scopes] at hb hperm
  obtain ⟨own, hanswers⟩ := Procedure.answers_command hc (h.supplies hm) hb held
  have hcounted := (m.store.counted_handles _).perm
    (hperm.append_right (own.map Value.scalar ++ held))
  have hothers : ∀ u ∈ rest ++ (own.map Value.scalar ++ held), st.Within kept u := by
    intro u hu
    rcases List.mem_append.mp hu with hu | hu
    · exact hrest u hu
    · rcases List.mem_append.mp hu with hu | hu
      · obtain ⟨a, -, rfl⟩ := List.mem_map.mp hu
        exact within_scalar a
      · exact h.held u hu
  have hperform := (hm.opened.perform h.sound hm.tree hcounted hothers hpath).accords hanswers
  exact hperform.mono fun t m' ⟨hscopes, hopened, htree⟩ =>
    ⟨hscopes.trans hm.scopes, hopened, htree⟩

/-- A row of commands, by induction on the row. -/
theorem commands {body : List Stmt} (h : Stage roles st kept held arg v ss)
    (hbody : body.mapM (p.statement? roles st arg) = some cs) (hpaths : ∀ c ∈ cs, c.path ∈ paths)
    (hm : Between st kept paths v ss t m) :
    Accords (Between st kept paths v ss) (t.performAll cs) (Run.execList p.names held body m) := by
  induction body generalizing cs t m with
  | nil =>
      cases hbody
      exact hm
  | cons s body ih =>
      rw [List.mapM_cons] at hbody
      obtain ⟨c, hc, hrest⟩ := Option.bind_eq_some_iff.mp hbody
      obtain ⟨cs, hcs, hlast⟩ := Option.bind_eq_some_iff.mp hrest
      cases hlast
      obtain ⟨hpath, hpaths⟩ := List.forall_mem_cons.mp hpaths
      cases s with
      | expr span value =>
          simp only [Run.execList, Run.exec, bind_assoc, pure_bind]
          rw [Template.performAll, List.foldlM_cons]
          exact (h.command hc hpath hm).bind fun t a m' hm' => ih hcs hpaths hm'
      | _ => cases hc

theorem body (h : Stage roles st kept held arg v ss) (hcs : p.commands? roles st arg = some cs)
    (hpaths : ∀ c ∈ cs, c.path ∈ paths) (hm : Between st kept paths v ss t m) :
    Accords (Between st kept paths v ss) (t.performAll cs)
      (Run.execBody p.names held p.body m) := by
  rw [Procedure.commands?.eq_def] at hcs
  cases hbody : p.body with
  | expr value =>
      rw [hbody] at hcs
      obtain ⟨c, hc, rfl⟩ := Option.map_eq_some_iff.mp hcs
      rw [Run.execBody, Template.performAll, List.foldlM_cons]
      exact (h.command hc (hpaths c List.mem_cons_self) hm).bind fun t a m' hm' => hm'
  | block first body =>
      rw [hbody] at hcs
      rw [Run.execBody]
      refine (h.enter.commands hcs hpaths ?_).inScope fun t m' hm' => ?_
      · exact ⟨congrArg ([] :: ·) hm.scopes, hm.opened, hm.tree⟩
      · exact ⟨congrArg List.tail hm'.scopes, hm'.opened, hm'.tree⟩

end Stage

/-! ### Updates -/

section Initial

variable {p : Procedure} {roles : Roles} {st st' : Store} {kept : List Value} {arg : Option Value}
  {state : Value} {captures : List (String × Value)}

/-- Beside the state, the scope of the parameters holds at most the argument. -/
theorem values_parameterScope (state : Value) (arg : Option Value)
    (hroles : p.roles = .ok roles) :
    ∃ rest, Scopes.values [p.parameterScope state arg] = state :: rest ∧
      ∀ u ∈ rest, u = arg.getD .undefined := by
  rw [Procedure.roles.eq_def] at hroles
  split at hroles
  · cases hroles
  · next s hparams =>
    refine ⟨[], ?_, List.forall_mem_nil _⟩
    rw [Procedure.parameterScope, hparams]
    rfl
  · next s a hparams =>
    split at hroles
    · cases hroles
    · next hne =>
      refine ⟨[arg.getD .undefined], ?_, fun u hu => List.mem_singleton.mp hu⟩
      rw [Procedure.parameterScope, hparams]
      simp [Scopes.values, Scope.put, hne]
  · cases hroles

/-- The stage on which the body of an update runs. -/
theorem stage_initial (hsound : st.Sound kept) (hroles : p.roles = .ok roles)
    (harg : arg.toList ⊆ kept) (hcaptures : captures.map Prod.snd ⊆ kept)
    (hkind : roles.args.isSome → st.kind (arg.getD .undefined) ∈ [Kind.string, .number, .record]) :
    Stage roles st kept (p.spareArgument arg ++ kept) (arg.getD .undefined) state
      (p.initial captures state arg st').scopes := by
  obtain ⟨-, -, -, -, hstate⟩ := exists_state_param hroles
  obtain ⟨rest, hrest, hrestarg⟩ := values_parameterScope state arg hroles
  have hwithin : st.Within kept (arg.getD .undefined) := by
    cases arg with
    | none => exact within_scalar _
    | some a => exact within_of_mem (harg List.mem_cons_self)
  refine ⟨hsound, hstate captures state arg st', fun name hname => find?_initial_args hroles hname,
    ⟨rest ++ Scopes.values [p.captureScope captures], ?_, fun u hu => ?_⟩, fun u hu => ?_, hwithin,
    hkind⟩
  · have hvalues : (p.initial captures state arg st').scopes.values =
        Scopes.values [p.parameterScope state arg] ++ Scopes.values [p.captureScope captures] := by
      simp [Procedure.initial, Scopes.values]
    rw [hvalues, hrest, List.cons_append]
  · rcases List.mem_append.mp hu with hu | hu
    · exact hrestarg u hu ▸ hwithin
    · exact within_of_mem (hcaptures (mem_values_captureScope hu))
  · rcases List.mem_append.mp hu with hu | hu
    · exact within_of_mem (harg (spareArgument_subset p arg hu))
    · exact within_of_mem hu

end Initial

namespace Update

variable {u : Update} {p : Procedure} {roles : Roles} {paths : List WritePath}
  {resolved : List KeyPath} {root : Value} {held : List Value} {w : Workspace} {cs : List Command}

/-- Copying the root, running a row of commands on the copy and freezing the result does what the
commands do to the tree of the root. -/
theorem applyPaths_straightLine (hsound : w.store.Sound (u.kept root held))
    (hfounded : w.store.Founded root) (hclass : w.store.ClassFree root)
    (hroles : p.roles = .ok roles)
    (hkind : roles.args.isSome →
      w.store.kind (u.args.getD .undefined) ∈ [Kind.string, .number, .record])
    (hcommands : p.commands? roles w.store (u.args.getD .undefined) = some cs)
    (hresolved : ∀ kp, kp ∈ resolved ↔ kp ∈ cs.map Command.path) :
    match (w.store.templateTo w.store.size root).performAll cs with
    | some t => ∃ out w', u.applyPaths p resolved root held w = (.ok out, w') ∧
        t.Describes w'.store out
    | none => ∃ e w', u.applyPaths p resolved root held w = (.error (.eval e), w') ∧
        e.fault ≠ .sharedWrite ∧ e.fault ≠ .frozenWrite := by
  obtain ⟨s, rest, hparams, hname, hstate⟩ := exists_state_param hroles
  have hroot : w.store.Within (u.kept root held) root := within_of_mem List.mem_cons_self
  have htree := describes_template hsound hroot hfounded
  -- The nodes on the paths are the own ones of the copy, and what is deleted is gone already.
  have hopened := opened_copy hsound (w.settings.effective u.options).1.keepClass hroot hclass htree
    resolved
  have hthinned := w.store.copy_thinned hsound (w.settings.effective u.options).1.keepClass hroot
    hclass resolved htree
  rw [applyPaths_eq hparams]
  generalize w.store.copy (w.settings.effective u.options).1.keepClass root resolved = copied
    at hopened hthinned ⊢
  have hrun := (stage_initial hsound hroles (args_subset_kept u root held)
    (captures_subset_kept u root held) hkind).body hcommands
    (fun c hc => (hresolved _).mpr (List.mem_map_of_mem hc)) ⟨rfl, hopened, hthinned⟩
  rw [Template.performAll_dropped hresolved, ← Procedure.execute] at hrun
  generalize (w.store.templateTo w.store.size root).performAll cs = o at hrun ⊢
  cases hresult : p.execute (u.kept root held) u.captures copied.1 u.args copied.2.store with
  | error e m =>
      rw [hresult] at hrun
      cases o with
      | none => exact ⟨e, _, rfl, hrun⟩
      | some t => exact hrun.elim
  | ok flow m =>
      rw [hresult] at hrun
      cases o with
      | none => exact hrun.elim
      | some t =>
          obtain ⟨b, hb, hv⟩ := hstate u.captures copied.1 u.args copied.2.store
          have hout : ((m.scopes.find? s.name).map Binding.value).getD .undefined = copied.1 := by
            rw [hrun.scopes, hname, hb, ← hv]
            rfl
          refine ⟨_, _, rfl, ?_⟩
          rw [hout]
          exact hrun.tree.agree (frozen_finish ⟨_, _, m.store⟩ _ _).agreeBelow

/-- An update whose body is a row of commands succeeds exactly when the commands, done one after
another, succeed on the tree of the root. Its result is then the tree after the commands; otherwise
it fails, but never because of a shared or a frozen node. -/
theorem apply_straightLine (hsound : w.store.Sound (u.kept root held))
    (hfounded : w.store.Founded root) (hclass : w.store.ClassFree root)
    (hparse : Procedure.parse u.source = .ok p) (hroles : p.roles = .ok roles)
    (hpaths : p.writePaths = .ok paths)
    (hresolve : resolvePaths w.store u.args paths = .ok resolved)
    (hkind : roles.args.isSome →
      w.store.kind (u.args.getD .undefined) ∈ [Kind.string, .number, .record])
    (hcommands : p.commands? roles w.store (u.args.getD .undefined) = some cs) (hne : cs ≠ []) :
    match (w.store.templateTo w.store.size root).performAll cs with
    | some t => ∃ out w', u.apply root held w = (.ok out, w') ∧ t.Describes w'.store out
    | none => ∃ e w', u.apply root held w = (.error (.eval e), w') ∧
        e.fault ≠ .sharedWrite ∧ e.fault ≠ .frozenWrite := by
  have hresolved := Procedure.mem_resolved_iff hroles hpaths hresolve hcommands
  have hnonempty : paths.isEmpty = false := by
    obtain ⟨c, hc⟩ := List.exists_mem_of_ne_nil cs hne
    obtain ⟨path, hpath, -⟩ := exists_of_mem_resolvePaths hresolve
      ((hresolved _).mpr (List.mem_map_of_mem hc))
    exact List.isEmpty_eq_false_iff.mpr (List.ne_nil_of_mem hpath)
  obtain ⟨w₁, hstore, -, happly⟩ := apply_eq root held w hparse hpaths
  rw [happly, hnonempty, if_neg Bool.false_ne_true, hresolve]
  rw [← hstore] at hsound hfounded hclass hkind hcommands ⊢
  exact applyPaths_straightLine hsound hfounded hclass hroles hkind hcommands hresolved

/-- A workspace with a record that holds a frozen job beside a map with the same job. -/
def schedule : Workspace :=
  .fresh none ⟨#[⟨true, .list [.text "start"]⟩,
    ⟨true, .record none (.ofList [("log", .node ⟨0⟩)])⟩,
    ⟨false, .map (.ofList [("run", .node ⟨1⟩), ("old", .bool true)])⟩,
    ⟨false, .record none (.ofList [("last", .node ⟨1⟩), ("all", .node ⟨2⟩)])⟩,
    ⟨true, .record none (.ofList [("id", .text "end")])⟩]⟩

def reschedule : Update :=
  ⟨"(s, a) => \x7b s.all.get('run').log['1'] = a.id; s.all.delete('old'); s.all.set(a.id, null) \x7d",
    some (.node ⟨4⟩), [], ⟨none, some true⟩⟩

theorem apply_straightLine_reschedule :
    ∃ out w', reschedule.apply (.node ⟨3⟩) [] schedule = (.ok out, w') ∧
      (Template.record [("last", .record [("log", .list [.scalar (.text "start")])]),
        ("all", .map [("run", .record [("log",
          .list [.scalar (.text "start"), .scalar (.text "end")])]),
          ("end", .scalar .null)])]).Describes w'.store out := by
  have hlayered : schedule.store.Layered := by decide
  have hsound : schedule.store.Sound (reschedule.kept (.node ⟨3⟩) []) :=
    hlayered.sound (by decide)
  obtain ⟨p, hp, hroles, hpaths, hcommands⟩ :
      ∃ p ∈ (Procedure.parse reschedule.source).toOption, p.roles = .ok ⟨⟨1⟩, some ⟨2⟩⟩ ∧
        p.writePaths = .ok [⟨[.key "all", .key "run", .key "log", .key "1"], .assign⟩,
          ⟨[.key "all", .key "old"], .mapDelete⟩, ⟨[.key "all", .named "id"], .mapSet⟩] ∧
        p.commands? ⟨⟨1⟩, some ⟨2⟩⟩ schedule.store (.node ⟨4⟩) =
          some [⟨[.key "all", .entry "run", .key "log"], "1", .assign (.text "end")⟩,
            ⟨[.key "all"], "old", .mapDelete⟩, ⟨[.key "all"], "end", .mapSet .null⟩] := by
    decide +kernel
  exact apply_straightLine hsound (hlayered.founded _) (classFree_of_plain (by decide))
    (eq_ok_of_mem_toOption hp) hroles hpaths rfl (fun _ => by decide) hcommands nofun

end Update

end PathCopy
