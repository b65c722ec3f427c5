import PathCopy.Proofs.Analysis

/-!
Foresight. Every write that an update makes through the state parameter was read off the text before
the run: it is an instance of a write path, with the effect of that path. It is at the keys that the
argument supplied before the run, as long as the procedure has not assigned the parameter of the
argument by then; the one other exception is a map with an entry `size`, whose property `size` is
the number of its entries.
-/

namespace PathCopy

open Store

/-! ### Instances of write paths -/

/-- Whether a segment can stand for a key; the argument may supply any key. -/
def Segment.Matches : Segment → String → Prop
  | .key text, k => k = text
  | .named _, _ => True
  | .whole, _ => True

def WritePath.Matches (path : WritePath) (keys : List String) : Prop :=
  List.Forall₂ Segment.Matches path.segments keys

/-- The key that an expression for a segment evaluates to if the argument has the given value. -/
def Segment.Spells (st : Store) (arg : Value) : Segment → String → Prop
  | .key text, k => k = text
  | .whole, k => arg.key? = some k
  | .named field, k => (st.property arg field).key? = some k

def Rebound (roles : Roles) (writes : List Write) : Prop :=
  ∃ w ∈ writes, w.keys = [] ∧ roles.args = some w.root

/-- A write through the state goes below it and is an instance of a write path, with the keys of the
argument as long as the parameter of the argument was not assigned. -/
def Foreseen (roles : Roles) (paths : List WritePath) (st : Store) (arg : Value)
    (earlier : List Write) (w : Write) : Prop :=
  w.root = roles.state → w.keys ≠ [] ∧ ∃ path ∈ paths, path.effect = w.effect ∧
    path.Matches w.keys ∧
    (¬ Rebound roles earlier → List.Forall₂ (Segment.Spells st arg) path.segments w.keys)

instance (roles : Roles) (writes : List Write) : Decidable (Rebound roles writes) :=
  inferInstanceAs (Decidable (∃ w ∈ writes, w.keys = [] ∧ roles.args = some w.root))

theorem Rebound.mono {roles : Roles} {earlier writes : List Write} (h : Rebound roles earlier)
    (hsub : earlier ⊆ writes) : Rebound roles writes := by
  obtain ⟨w, hw, hkeys⟩ := h
  exact ⟨w, hsub hw, hkeys⟩

/-! ### Parameters keep their scope -/

/-- The scopes inside the two outermost ones bind no parameter. -/
def Framed (roles : Roles) : Scopes → Prop
  | s :: t :: u :: outer =>
    (∀ name, roles.isParameter name → s.find? name = none) ∧ Framed roles (t :: u :: outer)
  | _ => True

section Framed

variable {roles : Roles} {ss : Scopes} {s : Scope} {name : Name} {b : Binding} {v : Value}

theorem Framed.enter (h : Framed roles ss) : Framed roles ([] :: ss) := by
  match ss, h with
  | [], _ => trivial
  | [_], _ => trivial
  | _ :: _ :: _, h => exact ⟨fun _ _ => rfl, h⟩

theorem Framed.leave (h : Framed roles ss) : Framed roles ss.tail := by
  match ss, h with
  | [], _ => trivial
  | [_], _ => trivial
  | [_, _], _ => trivial
  | _ :: _ :: _ :: _, h => exact h.2

/-- A scope that is left binds no parameter. -/
theorem Framed.find?_tail (h : Framed roles ss) (hlength : 2 < ss.length)
    (hname : roles.isParameter name) : Scopes.find? name ss.tail = ss.find? name := by
  match ss, h, hlength with
  | s :: t :: u :: outer, h, _ => rw [Scopes.find?, h.1 name hname, List.tail_cons]

theorem Framed.head {s' : Scope} (h : Framed roles (s :: ss))
    (hs : ∀ name, roles.isParameter name → s.find? name = none → s'.find? name = none) :
    Framed roles (s' :: ss) := by
  match ss, h with
  | [], _ => trivial
  | [_], _ => trivial
  | _ :: _ :: _, h => exact ⟨fun name hname => hs name hname (h.1 name hname), h.2⟩

theorem Framed.define (h : Framed roles ss) (hname : roles.isParameter name = false) :
    Framed roles (ss.define name b) := by
  cases ss with
  | nil => trivial
  | cons s ss =>
      refine h.head fun other hother hfind => ?_
      rw [Scope.find?_put, if_neg, hfind]
      rintro rfl
      rw [hname] at hother
      simp at hother

theorem Framed.setValue (h : Framed roles ss) : Framed roles (ss.setValue name v) := by
  induction ss with
  | nil => trivial
  | cons s ss ih =>
      rw [Scopes.setValue]
      cases hs : s.find? name with
      | some b =>
          refine h.head fun other _ hfind => ?_
          rw [Scope.find?_put, if_neg, hfind]
          rintro rfl
          rw [hs] at hfind
          simp at hfind
      | none =>
          have hlength := Scopes.length_setValue ss name v
          cases ss with
          | nil => trivial
          | cons t ss =>
              cases ss with
              | nil =>
                  obtain ⟨t', ht'⟩ := List.length_eq_one_iff.mp hlength
                  rw [ht']
                  trivial
              | cons u outer =>
                  have hinner := ih h.2
                  cases hss : Scopes.setValue name v (t :: u :: outer) with
                  | nil => simp [hss] at hlength
                  | cons t' rest =>
                      cases rest with
                      | nil => simp [hss] at hlength
                      | cons u' outer' =>
                          rw [hss] at hinner
                          exact ⟨h.1, hinner⟩

end Framed

/-! ### The argument during a run -/

/-- What a run keeps beside the fence: the parameter of the argument has its value until it is
assigned. -/
structure Supplied (roles : Roles) (st : Store) (kept : List Value) (arg : Value)
    (vs : List Value) (m : Machine) : Prop where
  fenced : Fenced st kept vs m
  framed : Framed roles m.scopes
  bound : ¬ Rebound roles m.writes → ∀ name, roles.args = some name →
    ∃ b, m.scopes.find? name = some b ∧ b.value = arg

/-- What a procedure may contain whose writes are among the paths. -/
def foresight (p : Procedure) (roles : Roles) (paths : List WritePath) (st : Store) (arg : Value) :
    Policy where
  accept := Covered p roles paths
  declare name := roles.isParameter name = false
  license := Foreseen roles paths st arg

variable {p : Procedure} {roles : Roles} {paths : List WritePath} {st : Store}
  {kept vs : List Value} {arg : Value} {base : ℕ} {m m' : Machine}

theorem isParameter_args {name : Name} (h : roles.args = some name) : roles.isParameter name := by
  simp [Roles.isParameter, Roles.isArgs, h]

namespace Supplied

theorem refence {ws : List Value} (h : Supplied roles st kept arg vs m)
    (hfenced : Fenced st kept ws m') (hscopes : m'.scopes = m.scopes)
    (hwrites : m'.writes = m.writes) : Supplied roles st kept arg ws m' := by
  refine ⟨hfenced, hscopes ▸ h.framed, ?_⟩
  rw [hwrites, hscopes]
  exact h.bound

theorem wrote {new : List Value} {w : Write} (h : Supplied roles st kept arg vs m)
    (hsound : st.Sound kept) (hwrote : Run.Wrote vs new w m m') (hnew : new ⊆ vs) :
    Supplied roles st kept arg vs m' := by
  have hfenced := h.fenced.wrote hsound hwrote hnew
  have hearlier : ∀ {m : Machine}, ¬ Rebound roles (w :: m.writes) → ¬ Rebound roles m.writes :=
    fun hnot hre => hnot (hre.mono (List.subset_cons_self _ _))
  cases hwrote with
  | assigned hb hassignable hkeys heffect hvalue =>
      refine ⟨hfenced, h.framed.setValue, fun hnot name hname => ?_⟩
      obtain ⟨b, hfind, harg⟩ := h.bound (hearlier hnot) name hname
      refine ⟨b, ?_, harg⟩
      rw [Scopes.find?_setValue, if_neg, hfind]
      -- Otherwise this assignment binds the parameter anew.
      rintro rfl
      exact hnot ⟨w, List.mem_cons_self, hkeys, hname⟩
  | stored hb hwritten =>
      exact ⟨hfenced, h.framed, fun hnot => h.bound (hearlier hnot)⟩

end Supplied

theorem supplied_invariant (hsound : st.Sound kept) :
    Run.Invariant (foresight p roles paths st arg) kept 2 (Supplied roles st kept arg) := by
  have hI : Run.Invariant (foresight p roles paths st arg) kept 2 (Fenced st kept) :=
    fenced_invariant hsound
  refine
    { drop := fun h hsub hkept => h.refence (hI.drop h.fenced hsub hkept) rfl rfl
      scalar := fun a h => h.refence (hI.scalar a h.fenced) rfl rfl
      child := fun h hr hc => h.refence (hI.child h.fenced hr hc) rfl rfl
      lookup := fun h hb => h.refence (hI.lookup h.fenced hb) rfl rfl
      alloc := fun h hbody => h.refence (hI.alloc h.fenced hbody) rfl rfl
      define := ?_
      wrote := fun h hwrote hnew _ => h.wrote hsound hwrote hnew
      enter := ?_
      leave := ?_ }
  · intro vs m name v assignable h (hname : roles.isParameter name = false) hv
    refine ⟨hI.define assignable h.fenced hname hv, h.framed.define hname,
      fun hnot args hargs => ?_⟩
    have hne : args ≠ name := by
      rintro rfl
      rw [isParameter_args hargs] at hname
      simp at hname
    dsimp only
    rw [Scopes.find?_define_of_ne _ hne]
    exact h.bound hnot args hargs
  · intro vs m h
    exact ⟨hI.enter h.fenced, h.framed.enter, h.bound⟩
  · intro vs m h hlength
    refine ⟨hI.leave h.fenced hlength, h.framed.leave, fun hnot args hargs => ?_⟩
    dsimp only
    rw [h.framed.find?_tail hlength (isParameter_args hargs)]
    exact h.bound hnot args hargs

/-! ### Every write has its path -/

/-- What a segment gives in a run is what the argument gave before it. -/
theorem Supplied.spells {s : Segment} {k : String} (h : Supplied roles st kept arg vs m)
    (hsound : st.Sound kept) (harg : st.Within kept arg) (hnot : ¬ Rebound roles m.writes)
    (hreads : s.Reads roles m k) : s.Spells st arg k := by
  cases s with
  | key text => exact hreads
  | whole =>
      obtain ⟨name, b, hname, hb, hkey⟩ := hreads
      obtain ⟨c, hc, rfl⟩ := h.bound hnot name hname
      rw [hb] at hc
      cases hc
      exact hkey
  | named field =>
      obtain ⟨name, b, hname, hb, hkey⟩ := hreads
      obtain ⟨c, hc, rfl⟩ := h.bound hnot name hname
      rw [hb] at hc
      cases hc
      rw [(hsound.agreeBelow h.fenced.grown.toExtends harg).property_eq] at hkey
      exact hkey

theorem Supplied.spelled {segments : List Segment} {keys : List String}
    (h : Supplied roles st kept arg vs m) (hsound : st.Sound kept) (harg : st.Within kept arg)
    (hnot : ¬ Rebound roles m.writes) (hreads : List.Forall₂ (Segment.Reads roles m) segments keys) :
    List.Forall₂ (Segment.Spells st arg) segments keys :=
  hreads.imp fun _ _ hs => h.spells hsound harg hnot hs

theorem Segment.Reads.matches {s : Segment} {k : String} (h : s.Reads roles m k) : s.Matches k := by
  cases s with
  | key text => exact h
  | named field => trivial
  | whole => trivial

/-- A write whose keys are read off segments of a path has its license from then on. -/
theorem Supplied.pending {w : Write} {segments : List Segment}
    (h : Supplied roles st kept arg vs m) (hsound : st.Sound kept) (harg : st.Within kept arg)
    (hne : w.keys ≠ []) (hpath : ⟨segments, w.effect⟩ ∈ paths)
    (hreads : List.Forall₂ (Segment.Reads roles m) segments w.keys) :
    Run.Pending (foresight p roles paths st arg) w m := by
  intro writes hsuffix _
  exact ⟨hne, _, hpath, rfl, hreads.imp fun _ _ => Segment.Reads.matches, fun hnot =>
    h.spelled hsound harg (fun hre => hnot (hre.mono hsuffix.subset)) hreads⟩

theorem pending_of_ne {w : Write} (h : w.root ≠ roles.state) :
    Run.Pending (foresight p roles paths st arg) w m := fun _ _ hroot => absurd hroot h

/-- The place of a map on a chain from the state, and the key after it, are what the segments give. -/
theorem keyed_traces {base index : Expr} {chain : Option (List Segment)} {pl : Place} {k : String}
    (hchain : p.stateChain roles base = .ok chain)
    (hrun : Run.keyed p.names vs base index m = .ok (pl, k) m') :
    (chain = none → pl.root ≠ roles.state) ∧
    ∀ segments s, chain = some segments → p.segment roles index = .ok s →
      m' = m ∧ pl.root = roles.state ∧
        List.Forall₂ (Segment.Reads roles m) (segments ++ [s]) (pl.keys ++ [k]) := by
  obtain ⟨m₁, v, hpl, hv, hk⟩ := Run.keyed_ok hrun
  have htraces := Procedure.place_traces hchain hpl
  constructor
  · rintro rfl
    exact htraces
  · rintro segments s rfl hs
    obtain ⟨rfl, hroot, hreads⟩ := htraces
    obtain ⟨rfl, hlast⟩ := (Procedure.segment_ok_iff.mp hs).reads hv hk
    exact ⟨rfl, hroot, List.rel_append hreads (.cons hlast .nil)⟩

/-- The call of a method on a chain from the state is one of the three that have a path. -/
theorem pending_call {site site' : Site} {base index : Expr} {prop : Name} {args : List Expr}
    {effect : Effect} {pl : Place} {k : String}
    (hcovered : Covered p roles paths (.call site (.member site' base prop) args))
    (hwrites : ∀ segments own, p.stateChain roles base = .ok (some segments) →
      p.callWrites roles site (.member site' base prop) args = .ok own →
      ∃ s, p.segment roles index = .ok s ∧ own = [⟨segments ++ [s], effect⟩])
    (h : Supplied roles st kept arg vs m) (hsound : st.Sound kept) (harg : st.Within kept arg)
    (hrun : Run.keyed p.names vs base index m = .ok (pl, k) m') :
    Run.Pending (foresight p roles paths st arg) ⟨pl.root, pl.keys ++ [k], effect⟩ m' := by
  obtain ⟨own, hown, hsub⟩ := hcovered.call.1
  have hchain := hown
  rw [Procedure.callWrites] at hchain
  obtain ⟨chain, hchain, -⟩ := except_bind_ok hchain
  obtain ⟨hother, hstate⟩ := keyed_traces hchain hrun
  cases chain with
  | none => exact pending_of_ne (hother rfl)
  | some segments =>
      obtain ⟨s, hs, rfl⟩ := hwrites segments own hchain hown
      obtain ⟨rfl, -, hreads⟩ := hstate segments s rfl hs
      exact h.pending hsound harg (by simp) (hsub List.mem_cons_self) hreads

theorem enforced_foresight (hsound : st.Sound kept) (harg : st.Within kept arg) :
    Run.Enforced (foresight p roles paths st arg) p.names (Supplied roles st kept arg) where
  parts {e} h := by
    cases e with
    | member site base prop => exact List.forall_mem_singleton.mpr h.member
    | index site base key =>
        exact List.forall_mem_cons.mpr ⟨h.index.1, List.forall_mem_singleton.mpr h.index.2⟩
    | call site callee args =>
        cases callee with
        | member site' base prop =>
            have hbase := h.call.2.1.member
            intro e he
            rcases List.mem_append.mp he with he | he
            · exact hbase.keys e he
            · exact List.forall_mem_cons.mpr ⟨hbase, h.call.2.2⟩ e he
        | _ => exact List.forall_mem_nil _
    | assign site op target value =>
        intro e he
        rcases List.mem_append.mp he with he | he
        · exact h.assign.2.1 e he
        · exact List.forall_mem_singleton.mpr h.assign.2.2 e he
    | step site op fixity target => exact h.step.2.keys
    | binary site op left right =>
        obtain ⟨ws, hws, hsub⟩ := h
        rw [Procedure.exprWrites] at hws
        obtain ⟨us, hus, hws⟩ := except_bind_ok hws
        obtain ⟨vs, hvs, hws⟩ := except_bind_ok hws
        cases hws
        obtain ⟨hleft, hright⟩ := List.append_subset.mp hsub
        exact List.forall_mem_cons.mpr
          ⟨⟨us, hus, hleft⟩, List.forall_mem_singleton.mpr ⟨vs, hvs, hright⟩⟩
    | unary site op operand =>
        obtain ⟨ws, hws, hsub⟩ := h
        rw [Procedure.exprWrites] at hws
        exact List.forall_mem_singleton.mpr ⟨ws, hws, hsub⟩
    | array site items =>
        obtain ⟨ws, hws, hsub⟩ := h
        rw [Procedure.exprWrites] at hws
        exact covered_list hws hsub
    | object site entries =>
        obtain ⟨ws, hws, hsub⟩ := h
        rw [Procedure.exprWrites] at hws
        exact covered_entries hws hsub
    | _ => exact List.forall_mem_nil _
  assign {site op target value} hcovered held := .of_ok fun m pl m' h hrun => by
    obtain ⟨⟨chain, hchain, hpath⟩, -⟩ := Covered.assign hcovered
    have htraces := Procedure.place_traces hchain hrun
    cases chain with
    -- Without a chain the target is at another variable than the state.
    | none => exact pending_of_ne htraces
    | some segments =>
        obtain ⟨rfl, -, hreads⟩ := htraces
        obtain ⟨hne, hpath⟩ := hpath segments rfl
        refine h.pending hsound harg (fun hkeys => ?_) hpath hreads
        have hkeys' : pl.keys = [] := hkeys
        rw [hkeys'] at hreads
        exact hne (List.forall₂_nil_right_iff.mp hreads)
  -- The analysis accepts no step on a place of the state.
  step {site op fixity target} hcovered held := .of_ok fun m pl m' h hrun =>
    pending_of_ne (Procedure.place_traces (Covered.step hcovered).1 hrun)
  set {site site' base prop index value} hcovered hset held := .of_ok fun m a m' h hrun => by
    refine pending_call hcovered (fun segments own hchain hown => ?_) h hsound harg hrun
    rw [Procedure.callWrites, hchain] at hown
    simp only [bind, Except.bind, Procedure.nameText, hset] at hown
    obtain ⟨s, hs, hown⟩ := except_bind_ok hown
    cases hown
    exact ⟨s, hs, rfl⟩
  delete {site site' base prop index} hcovered hdelete held := .of_ok fun m a m' h hrun => by
    refine pending_call hcovered (fun segments own hchain hown => ?_) h hsound harg hrun
    rw [Procedure.callWrites, hchain] at hown
    simp only [bind, Except.bind, Procedure.nameText, hdelete] at hown
    obtain ⟨s, hs, hown⟩ := except_bind_ok hown
    cases hown
    exact ⟨s, hs, rfl⟩

/-! ### Whole procedures -/

theorem allows_foresight :
    (∀ s ws, p.stmtWrites roles s = .ok ws → ws ⊆ paths →
      (foresight p roles paths st arg).Allows s) ∧
    ∀ ss ws, p.stmtsWrites roles ss = .ok ws → ws ⊆ paths →
      (foresight p roles paths st arg).AllowsAll ss := by
  have hoption : ∀ {value ws}, p.optionWrites roles value = .ok ws → ws ⊆ paths →
      ∀ e, value = some e → Covered p roles paths e := by
    rintro value ws hws hsub e rfl
    exact ⟨ws, hws, hsub⟩
  apply stmts_induct
  case expr =>
    intro span value ws hws hsub
    rw [Procedure.stmtWrites] at hws
    rw [Policy.Allows]
    exact ⟨ws, hws, hsub⟩
  case declare =>
    intro span name assignable initial ws hws hsub
    rw [Procedure.stmtWrites] at hws
    rw [Policy.Allows]
    split at hws
    · simp at hws
    · next hname => exact ⟨Bool.eq_false_of_not_eq_true hname, hoption hws hsub⟩
  case ret =>
    intro span value ws hws hsub
    rw [Procedure.stmtWrites] at hws
    rw [Policy.Allows]
    exact hoption hws hsub
  case block =>
    intro span first body ih ws hws hsub
    rw [Procedure.stmtWrites] at hws
    rw [Policy.Allows]
    exact ih ws hws hsub
  case empty => exact fun span ws _ _ => trivial
  case nil => exact fun ws _ _ => trivial
  case cons =>
    intro s rest ih ihrest ws hws hsub
    rw [Procedure.stmtsWrites] at hws
    rw [Policy.AllowsAll]
    obtain ⟨us, hus, hws⟩ := except_bind_ok hws
    obtain ⟨vs, hvs, hws⟩ := except_bind_ok hws
    cases hws
    obtain ⟨hleft, hright⟩ := List.append_subset.mp hsub
    exact ⟨ih us hus hleft, ihrest vs hvs hright⟩

/-- A procedure with write paths contains only what they foresee. -/
theorem allowsBody_foresight (hroles : p.roles = .ok roles) (hpaths : p.writePaths = .ok paths) :
    (foresight p roles paths st arg).AllowsBody p.body := by
  rw [Procedure.writePaths] at hpaths
  obtain ⟨roles', hroles', hbind⟩ := except_bind_ok hpaths
  rw [hroles] at hroles'
  cases hroles'
  obtain ⟨writes, hwrites, hlast⟩ := except_bind_ok hbind
  cases hlast
  have hsub : writes ⊆ writes.eraseDups := fun w hw => List.mem_eraseDups.mpr hw
  rw [Procedure.bodyWrites] at hwrites
  cases hbody : p.body with
  | expr value =>
      rw [hbody] at hwrites
      exact ⟨writes, hwrites, hsub⟩
  | block first body =>
      rw [hbody] at hwrites
      exact allows_foresight.2 body writes hwrites hsub

theorem find?_initial_args {captures : List (String × Value)} {state : Value}
    {arg : Option Value} {name : Name} (hroles : p.roles = .ok roles)
    (hname : roles.args = some name) :
    ∃ b, (p.initial captures state arg st).scopes.find? name = some b ∧
      b.value = arg.getD .undefined := by
  rw [Procedure.roles.eq_def] at hroles
  split at hroles
  · simp at hroles
  · cases hroles
    simp at hname
  · next s a hparams =>
    split at hroles
    · simp at hroles
    · cases hroles
      cases hname
      refine ⟨⟨arg.getD .undefined, true⟩, ?_, rfl⟩
      rw [Procedure.initial, Procedure.parameterScope, hparams, Scopes.find?, Scope.find?_put,
        if_pos rfl]
  · simp at hroles

theorem supplied_initial {captures : List (String × Value)} {state : Value} {arg : Option Value}
    {st' : Store} (hroles : p.roles = .ok roles) (hgrown : st.Grown kept st')
    (hstate : st.Available kept st' state) (harg : arg.toList ⊆ kept)
    (hcaptures : captures.map Prod.snd ⊆ kept) :
    Supplied roles st kept (arg.getD .undefined) (p.spareArgument arg ++ kept)
      (p.initial captures state arg st') :=
  ⟨fenced_initial hgrown hstate harg hcaptures, trivial, fun _ _ hname =>
    find?_initial_args hroles hname⟩

/-! ### Key paths -/

/-- The key of a segment under an argument is the one that its expression spells; only the property
`size` of a map is not its entry `size`. -/
theorem Segment.Spells.eq_resolve {s : Segment} {k k' : String} (h : s.Spells st arg k)
    (hresolve : s.resolve st arg = .ok k') (hsize : s = .named "size" → st.kind arg ≠ .map) :
    k' = k := by
  cases s with
  | key text =>
      cases hresolve
      exact h.symm
  | whole =>
      rw [Spells] at h
      rw [resolve, h] at hresolve
      cases hresolve
      rfl
  | named field =>
      rw [Spells] at h
      rw [resolve] at hresolve
      cases arg with
      | scalar a => cases hresolve
      | node r =>
          rw [Store.property] at h
          rw [fields?] at hresolve
          cases hbody : st.body r with
          | date ms =>
              simp only [hbody] at hresolve
              simp at hresolve
          | list items =>
              simp only [hbody] at hresolve
              simp at hresolve
          | map entries =>
              rw [hbody, Body.property] at h
              split at h
              · next hfield =>
                -- The only property of a map is `size`, which `hsize` leaves out.
                refine absurd ?_ (hsize (congrArg Segment.named hfield))
                rw [Store.kind, hbody, Body.kind]
              · cases h
          | record cls fields =>
              rw [hbody] at h
              simp only [hbody] at hresolve
              cases hget : fields.get? field with
              | none =>
                  rw [hget] at hresolve
                  simp at hresolve
              | some v =>
                  have hproperty : (Body.record cls fields).property field = v := by
                    simp [Body.property, Body.get?, Body.child?, hget]
                  rw [hproperty] at h
                  simp only [hget, h] at hresolve
                  cases hresolve
                  rfl

theorem exists_of_mem_resolvePaths {arg : Option Value} {resolved : List KeyPath} {kp : KeyPath}
    (hresolve : resolvePaths st arg paths = .ok resolved) (hkp : kp ∈ resolved) :
    ∃ path ∈ paths, path.resolve st (arg.getD .undefined) = .ok kp :=
  exists_of_forall₂ (forall₂_of_mapM hresolve).flip hkp

theorem WritePath.effect_of_resolve {path : WritePath} {kp : KeyPath}
    (h : path.resolve st arg = .ok kp) : kp.effect = path.effect := by
  rw [resolve] at h
  obtain ⟨keys, -, hlast⟩ := except_bind_ok h
  cases hlast
  rfl

theorem WritePath.keys_of_resolve {path : WritePath} {kp : KeyPath} {keys : List String}
    (hresolve : path.resolve st arg = .ok kp)
    (hspells : List.Forall₂ (Segment.Spells st arg) path.segments keys)
    (hsize : .named "size" ∈ path.segments → st.kind arg ≠ .map) : kp = ⟨keys, path.effect⟩ := by
  rw [resolve] at hresolve
  obtain ⟨found, hfound, hlast⟩ := except_bind_ok hresolve
  cases hlast
  have hkeys : ∀ {segments keys found}, segments ⊆ path.segments →
      List.Forall₂ (Segment.Spells st arg) segments keys →
      List.Forall₂ (fun s k => Segment.resolve st arg s = .ok k) segments found →
      found = keys := by
    intro segments keys found hsub hspells hfound
    induction hspells generalizing found with
    | nil => exact List.forall₂_nil_left_iff.mp hfound
    | cons hs hrest ih =>
        obtain ⟨hmem, hsub'⟩ := List.cons_subset.mp hsub
        cases hfound with
        | cons hk hrest' =>
            rw [hs.eq_resolve hk fun heq => hsize (heq ▸ hmem), ih hsub' hrest']
  rw [hkeys (List.Subset.refl _) hspells (forall₂_of_mapM hfound)]

/-- A path whose keys are those of the argument is resolved to them. -/
theorem mem_resolvePaths {arg : Option Value} {resolved : List KeyPath} {path : WritePath}
    {keys : List String} (hresolve : resolvePaths st arg paths = .ok resolved)
    (hpath : path ∈ paths)
    (hspells : List.Forall₂ (Segment.Spells st (arg.getD .undefined)) path.segments keys)
    (hsize : .named "size" ∈ path.segments → st.kind (arg.getD .undefined) ≠ .map) :
    ⟨keys, path.effect⟩ ∈ resolved := by
  obtain ⟨kp, hkp, hpathok⟩ := exists_of_forall₂ (forall₂_of_mapM hresolve) hpath
  rw [← WritePath.keys_of_resolve hpathok hspells hsize]
  exact hkp

/-! ### Updates -/

namespace Update

variable {u : Update} {root : Value} {held : List Value} {w : Workspace} {resolved : List KeyPath}
  {later earlier : List Write} {wr : Write}

theorem executed_foreseen (hsound : w.store.Sound (u.kept root held)) (hroles : p.roles = .ok roles)
    (hpaths : p.writePaths = .ok paths) :
    Journal (Foreseen roles paths w.store (u.args.getD .undefined))
      (u.executed p resolved root held w).writes := by
  have hcopy := copy_root_adds hsound resolved
  exact ((supplied_invariant hsound).execute (enforced_foresight hsound within_args)
    (allowsBody_foresight hroles hpaths) (List.subset_append_right _ _)
    (supplied_initial hroles hcopy.grown (hcopy.available _ List.mem_cons_self)
      (args_subset_kept u root held) (captures_subset_kept u root held))).2

/-- Every write through the state has a write path with its effect that stands for its keys; and if
the parameter of the argument was not assigned before, and the path takes no property `size` of a
map, the keys are those that the path was resolved to. -/
theorem writes_foreseen (hsound : w.store.Sound (u.kept root held)) (hroles : p.roles = .ok roles)
    (hpaths : p.writePaths = .ok paths)
    (hresolve : resolvePaths w.store u.args paths = .ok resolved)
    (hwrites : (u.executed p resolved root held w).writes = later ++ wr :: earlier)
    (hstate : wr.root = roles.state) :
    ∃ path ∈ paths, path.effect = wr.effect ∧ path.Matches wr.keys ∧
      (¬ Rebound roles earlier →
        (.named "size" ∈ path.segments → w.store.kind (u.args.getD .undefined) ≠ .map) →
        ⟨wr.keys, wr.effect⟩ ∈ resolved) := by
  have hjournal : Journal (Foreseen roles paths w.store (u.args.getD .undefined))
      (u.executed p resolved root held w).writes := executed_foreseen hsound hroles hpaths
  rw [hwrites] at hjournal
  obtain ⟨-, path, hpath, heffect, hmatches, hspells⟩ := hjournal.of_append hstate
  refine ⟨path, hpath, heffect, hmatches, fun hnot hsize => ?_⟩
  rw [← heffect]
  exact mem_resolvePaths hresolve hpath (hspells hnot) hsize

def bench : Workspace :=
  .fresh none ⟨#[⟨false, .record none .empty⟩, ⟨false, .map (.ofList [("size", .text "x")])⟩]⟩

def diverted : Update :=
  ⟨"(s, a) => \x7b s[a] = 1; a = 'y'; s[a] = 2 \x7d", some (.text "x"), [], ⟨none, some false⟩⟩

def measured : Update :=
  ⟨"(s, a) => \x7b s[a.size] = 1 \x7d", some (.node ⟨1⟩), [], ⟨none, some false⟩⟩

/-- The first write is at the key of the argument. -/
theorem writes_foreseen_diverted :
    ∃ p roles, Procedure.parse diverted.source = .ok p ∧ p.roles = .ok roles ∧
      p.writePaths = .ok [⟨[.whole], .assign⟩] ∧
      resolvePaths bench.store diverted.args [⟨[.whole], .assign⟩] = .ok [⟨["x"], .assign⟩] ∧
      (diverted.executed p [⟨["x"], .assign⟩] (.node ⟨0⟩) [] bench).writes =
        [⟨roles.state, ["y"], .assign⟩, ⟨⟨2⟩, [], .assign⟩] ++ ⟨roles.state, ["x"], .assign⟩ :: [] ∧
      (⟨["x"], .assign⟩ : KeyPath) ∈ [(⟨["x"], .assign⟩ : KeyPath)] := by
  have hsound : bench.store.Sound (diverted.kept (.node ⟨0⟩) []) :=
    Store.Layered.sound (by decide) (by decide)
  have hresolve : resolvePaths bench.store diverted.args [⟨[.whole], .assign⟩] =
      .ok [⟨["x"], .assign⟩] := by decide +kernel
  obtain ⟨p, hp, hroles, hpaths, hwrites⟩ :
      ∃ p ∈ (Procedure.parse diverted.source).toOption, p.roles = .ok ⟨⟨1⟩, some ⟨2⟩⟩ ∧
        p.writePaths = .ok [⟨[.whole], .assign⟩] ∧
        (diverted.executed p [⟨["x"], .assign⟩] (.node ⟨0⟩) [] bench).writes =
          [⟨⟨1⟩, ["y"], .assign⟩, ⟨⟨2⟩, [], .assign⟩] ++ ⟨⟨1⟩, ["x"], .assign⟩ :: [] := by
    decide +kernel
  obtain ⟨path, -, -, -, hresolved⟩ := writes_foreseen hsound hroles hpaths hresolve hwrites rfl
  exact ⟨_, _, eq_ok_of_mem_toOption hp, hroles, hpaths, hresolve, hwrites,
    hresolved (by decide) fun _ => by decide⟩

def Strays (u : Update) (root : Value) (w : Workspace) : Prop :=
  ∃ p roles paths resolved, Procedure.parse u.source = .ok p ∧ p.roles = .ok roles ∧
    p.writePaths = .ok paths ∧ resolvePaths w.store u.args paths = .ok resolved ∧
    ∃ wr ∈ (u.executed p resolved root [] w).writes, wr.root = roles.state ∧
      ⟨wr.keys, wr.effect⟩ ∉ resolved

/-- Both conditions are needed. -/
theorem strays_diverted_measured :
    diverted.Strays (.node ⟨0⟩) bench ∧ measured.Strays (.node ⟨0⟩) bench := by
  have hstrays : ∀ {u : Update} (path : WritePath), (∃ p ∈ (Procedure.parse u.source).toOption,
      p.roles = .ok ⟨⟨1⟩, some ⟨2⟩⟩ ∧ p.writePaths = .ok [path] ∧
      resolvePaths bench.store u.args [path] = .ok [⟨["x"], .assign⟩] ∧
      ∃ wr ∈ (u.executed p [⟨["x"], .assign⟩] (.node ⟨0⟩) [] bench).writes,
        wr.root = ⟨1⟩ ∧ ⟨wr.keys, wr.effect⟩ ∉ [(⟨["x"], .assign⟩ : KeyPath)]) →
      u.Strays (.node ⟨0⟩) bench := by
    rintro u path ⟨p, hp, hstrays⟩
    exact ⟨p, _, _, _, eq_ok_of_mem_toOption hp, hstrays⟩
  exact ⟨hstrays ⟨[.whole], .assign⟩ (by decide +kernel),
    hstrays ⟨[.named "size"], .assign⟩ (by decide +kernel)⟩

end Update

end PathCopy
