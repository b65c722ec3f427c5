import PathCopy.Proofs.Foresight
import PathCopy.Proofs.Positions

/-!
Sharing. The result of an update holds at every position that its text does not write the very value
that the root holds there. The copy shares it, and during the run no write gets there: the paths
part from it, and a write through another variable goes to a node that the state does not reach.
-/

namespace PathCopy

open Store

/-- A path touches a position if one of its instances is a prefix of the position, or extends it. -/
def WritePath.Touches (path : WritePath) (q : List String) : Prop :=
  ∃ keys, path.Matches keys ∧ (keys <+: q ∨ q <+: keys)

theorem diverge_of_not_prefix {keys q : List String} (h : ¬ keys <+: q) (h' : ¬ q <+: keys) :
    Diverge keys q := by
  induction keys generalizing q with
  | nil => exact h (List.nil_prefix)
  | cons key keys ih =>
      cases q with
      | nil => exact h' (List.nil_prefix)
      | cons k q =>
          by_cases hk : key = k
          · subst hk
            refine .inr (ih (fun hprefix => h ?_) fun hprefix => h' ?_)
            · exact List.cons_prefix_cons.mpr ⟨rfl, hprefix⟩
            · exact List.cons_prefix_cons.mpr ⟨rfl, hprefix⟩
          · exact .inl hk

/-- The instances of a path that does not touch a position part from it. -/
theorem WritePath.Matches.diverge {path : WritePath} {keys q : List String}
    (h : path.Matches keys) (hfree : ¬ path.Touches q) : Diverge keys q :=
  diverge_of_not_prefix (fun hprefix => hfree ⟨keys, h, .inl hprefix⟩)
    fun hprefix => hfree ⟨keys, h, .inr hprefix⟩

/-- The key path of a write path is an instance of it. -/
theorem WritePath.matches_of_resolve {path : WritePath} {kp : KeyPath} {st : Store} {arg : Value}
    (h : path.resolve st arg = .ok kp) : path.Matches kp.keys := by
  rw [resolve] at h
  obtain ⟨keys, hkeys, hlast⟩ := except_bind_ok h
  cases hlast
  refine (forall₂_of_mapM hkeys).imp fun s k hk => ?_
  cases s with
  | key text =>
      cases hk
      rfl
  | named field => trivial
  | whole => trivial

/-! ### During the run -/

/-- What a run keeps beside the argument: something holds of the store, the state and the journal. -/
structure Watched (roles : Roles) (st : Store) (kept : List Value) (arg : Value)
    (F : Store → Value → List Write → Prop) (vs : List Value) (m : Machine) : Prop
    extends Supplied roles st kept arg vs m where
  placed : ∃ b, m.scopes.find? roles.state = some b ∧ F m.store b.value m.writes

/-- What holds of the state as long as it holds whatever foreseen write goes through the state. -/
structure Lasting (roles : Roles) (paths : List WritePath) (st : Store) (arg : Value)
    (F : Store → Value → List Write → Prop) : Prop where
  agree : ∀ {s s' : Store} {v : Value} {writes : List Write}, s.AgreeBelow s' v →
    F s v writes → F s' v writes
  logged : ∀ {s : Store} {v : Value} {writes : List Write} (w : Write),
    F s v writes → F s v (w :: writes)
  wrote : ∀ {s s' : Store} {v : Value} {writes : List Write} {counts : Array ℕ}
    {others new : List Value} {w : Write}, F s v writes → s.Counted counts (v :: others) →
    s.Written counts v new w.keys s' → (new = [] → w.effect = .mapDelete) →
    w.root = roles.state → Foreseen roles paths st arg writes w → F s' v (w :: writes)

variable {p : Procedure} {roles : Roles} {paths : List WritePath} {st : Store}
  {kept vs : List Value} {arg w : Value} {q : List String} {m m' : Machine}
  {F : Store → Value → List Write → Prop}

theorem isParameter_state (roles : Roles) : roles.isParameter roles.state := by
  simp [Roles.isParameter]

namespace Watched

theorem keep {ws : List Value} (h : Watched roles st kept arg F vs m)
    (hsupplied : Supplied roles st kept arg ws m) : Watched roles st kept arg F ws m :=
  ⟨hsupplied, h.placed⟩

theorem wrote {new : List Value} {wr : Write} (h : Watched roles st kept arg F vs m)
    (hF : Lasting roles paths st arg F) (hsound : st.Sound kept)
    (hwrote : Run.Wrote vs new wr m m') (hnew : new ⊆ vs)
    (hforeseen : Foreseen roles paths st arg m.writes wr) :
    Watched roles st kept arg F vs m' := by
  refine ⟨h.toSupplied.wrote hsound hwrote hnew, ?_⟩
  obtain ⟨s, hs, hplaced⟩ := h.placed
  cases hwrote with
  | assigned hb _ hkeys _ _ =>
      -- The state is not assigned, so another variable is.
      refine ⟨s, ?_, hF.logged wr hplaced⟩
      rw [Scopes.find?_setValue, if_neg, hs]
      exact fun hroot => (hforeseen hroot.symm).1 hkeys
  | @stored b st' hb hwritten herased =>
      refine ⟨s, hs, ?_⟩
      obtain ⟨others, hcounted, -, hothers⟩ := Run.counted_others hb vs
      by_cases hroot : wr.root = roles.state
      · rw [hroot, hs] at hb
        cases hb
        exact hF.wrote hplaced hcounted hwritten herased hroot hforeseen
      · obtain ⟨t, body, rfl, -, -, halone, -⟩ := hwritten.exists_setBody hcounted
        have hstate := hothers roles.state s (fun he => hroot he.symm) hs
        have hunseen := halone s.value (List.mem_append_right _ hstate)
        exact hF.logged wr (hF.agree (agreeBelow_setBody hunseen) hplaced)

end Watched

theorem watched_invariant (hsound : st.Sound kept) (hF : Lasting roles paths st arg F) :
    Run.Invariant (foresight p roles paths st arg) kept 2 (Watched roles st kept arg F) := by
  have hI : Run.Invariant (foresight p roles paths st arg) kept 2 (Supplied roles st kept arg) :=
    supplied_invariant hsound
  -- Only the position is new here. A store that grows keeps it, as a binding of another name does.
  refine
    { drop := fun h hsub hkept => h.keep (hI.drop h.toSupplied hsub hkept)
      scalar := fun a h => h.keep (hI.scalar a h.toSupplied)
      child := fun h hr hc => h.keep (hI.child h.toSupplied hr hc)
      lookup := fun h hb => h.keep (hI.lookup h.toSupplied hb)
      alloc := ?_
      define := ?_
      wrote := fun h hwrote hnew hforeseen => h.wrote hF hsound hwrote hnew hforeseen
      enter := fun h => ⟨hI.enter h.toSupplied, h.placed⟩
      leave := ?_ }
  · intro vs m body h hbody
    refine ⟨hI.alloc h.toSupplied hbody, ?_⟩
    obtain ⟨s, hs, hplaced⟩ := h.placed
    have havailable := h.fenced.bound _ (Scopes.mem_values_of_find? hs)
    have hagree := h.fenced.grown.agreeBelow hsound havailable (extends_alloc m.store body)
    exact ⟨s, hs, hF.agree hagree hplaced⟩
  · intro vs m name v assignable h (hname : roles.isParameter name = false) hv
    refine ⟨hI.define assignable h.toSupplied hname hv, ?_⟩
    have hne : roles.state ≠ name := by
      rintro rfl
      rw [isParameter_state] at hname
      cases hname
    dsimp only
    rw [Scopes.find?_define_of_ne _ hne]
    exact h.placed
  · intro vs m h hlength
    refine ⟨hI.leave h.toSupplied hlength, ?_⟩
    dsimp only
    rw [h.framed.find?_tail hlength (isParameter_state roles)]
    exact h.placed

/-- The state holds `w` at a position. -/
abbrev Placed (roles : Roles) (st : Store) (kept : List Value) (arg : Value) (q : List String)
    (w : Value) (vs : List Value) (m : Machine) : Prop :=
  Watched roles st kept arg (fun s v _ => s.at? v q = some w) vs m

theorem placed_invariant (hsound : st.Sound kept) (hfree : ∀ path ∈ paths, ¬ path.Touches q) :
    Run.Invariant (foresight p roles paths st arg) kept 2 (Placed roles st kept arg q w) := by
  refine watched_invariant hsound
    { agree := fun hagree hplaced => hagree.at?_eq.trans hplaced
      logged := fun _ => id
      wrote := ?_ }
  intro s s' v writes counts others new wr hplaced hcounted hwritten _ hroot hforeseen
  obtain ⟨-, path, hpath, -, hmatches, -⟩ := hforeseen hroot
  rw [hwritten.at?_eq hcounted (hmatches.diverge (hfree path hpath)), hplaced]

/-! ### Updates -/

theorem exists_roles (h : p.writePaths = .ok paths) : ∃ roles, p.roles = .ok roles := by
  rw [Procedure.writePaths] at h
  obtain ⟨roles, hroles, -⟩ := except_bind_ok h
  exact ⟨roles, hroles⟩

/-- The first parameter of a procedure with roles is the state, and is bound to it. -/
theorem exists_state_param (hroles : p.roles = .ok roles) :
    ∃ s rest, p.params = s :: rest ∧ s.name = roles.state ∧
      ∀ (captures : List (String × Value)) (state : Value) (arg : Option Value) (st : Store),
        ∃ b, (p.initial captures state arg st).scopes.find? roles.state = some b ∧
          b.value = state := by
  rw [Procedure.roles.eq_def] at hroles
  split at hroles
  · cases hroles
  · next s hparams =>
    cases hroles
    refine ⟨s, [], hparams, rfl, fun captures state arg st => ⟨⟨state, true⟩, ?_, rfl⟩⟩
    rw [Procedure.initial, Procedure.parameterScope, hparams]
    simp [Scopes.find?, Scope.find?]
  · next s a hparams =>
    split at hroles
    · cases hroles
    · next hne =>
      cases hroles
      refine ⟨s, [a], hparams, rfl, fun captures state arg st => ⟨⟨state, true⟩, ?_, rfl⟩⟩
      rw [Procedure.initial, Procedure.parameterScope, hparams]
      simp [Scopes.find?, Scope.find?_put, Scope.find?, hne]
  · cases hroles

namespace Update

variable {u : Update} {root v out : Value} {held : List Value} {w w' : Workspace}

/-- At every position of the root that no write path touches, the result of an update holds the very
same value. -/
theorem at?_preserved (hsound : w.store.Sound (u.kept root held))
    (hparse : Procedure.parse u.source = .ok p) (hpaths : p.writePaths = .ok paths)
    (happly : u.apply root held w = (.ok out, w')) (hfree : ∀ path ∈ paths, ¬ path.Touches q)
    (hv : w.store.at? root q = some v) : w'.store.at? out q = some v := by
  obtain ⟨w₁, resolved, hstore, -, hresolve, hrun⟩ := apply_ok hparse hpaths happly
  rw [← hstore] at hsound hresolve hv
  obtain ⟨roles, hroles⟩ := exists_roles hpaths
  obtain ⟨s, rest, hparams, hname, hinitial⟩ := exists_state_param hroles
  obtain ⟨flow, m, hexecute, hout, hfrozen⟩ := applyPaths_ok hparams hrun
  have hdiverge : ∀ kp ∈ resolved, Diverge kp.keys q := by
    intro kp hkp
    obtain ⟨path, hpath, hpathok⟩ := exists_of_mem_resolvePaths hresolve hkp
    exact (WritePath.matches_of_resolve hpathok).diverge (hfree path hpath)
  have hcopy := copy_root_adds hsound resolved
  have hstart : Placed roles w₁.store (u.kept root held) (u.args.getD .undefined) q v
      (p.spareArgument u.args ++ u.kept root held) (p.initial u.captures _ u.args _) :=
    { supplied_initial hroles hcopy.grown (hcopy.available _ List.mem_cons_self)
        (args_subset_kept u root held) (captures_subset_kept u root held) with
      placed := by
        obtain ⟨b, hb, hvalue⟩ := hinitial u.captures _ u.args _
        refine ⟨b, hb, ?_⟩
        rw [hvalue]
        exact Store.copy_at? hsound _ (within_of_mem List.mem_cons_self) hdiverge hv }
  have hend := ((placed_invariant hsound hfree).execute
    ((enforced_foresight hsound within_args).mono fun h => h.toSupplied)
    (allowsBody_foresight hroles hpaths) (List.subset_append_right _ _) hstart).1
  rw [hexecute, Machine.after] at hend
  obtain ⟨b, hb, hat⟩ := hend.placed
  rw [hout, hname, hb]
  exact hfrozen.agreeBelow.at?_eq.trans hat

/-- A workspace with a record that holds a user with a home, and a map of marks. -/
def registry : Workspace :=
  .fresh none ⟨#[⟨false, .record none (.ofList [("city", .text "Rome")])⟩,
    ⟨false, .record none (.ofList [("name", .text "Ada"), ("home", .node ⟨0⟩)])⟩,
    ⟨true, .map (.ofList [("old", .bool true), ("home", .node ⟨0⟩)])⟩,
    ⟨false, .record none (.ofList [("user", .node ⟨1⟩), ("marks", .node ⟨2⟩)])⟩]⟩

def relabel : Update :=
  ⟨"(s, a) => \x7b s.user.name = a; s.marks.delete('old') \x7d", some (.text "Bea"), [],
    ⟨none, some false⟩⟩

theorem at?_preserved_relabel :
    ∃ out w', relabel.apply (.node ⟨3⟩) [] registry = (.ok out, w') ∧
      registry.store.at? (.node ⟨3⟩) ["user", "home"] = some (.node ⟨0⟩) ∧
      w'.store.at? out ["user", "home"] = some (.node ⟨0⟩) := by
  have hsound : registry.store.Sound (relabel.kept (.node ⟨3⟩) []) :=
    Store.Layered.sound (by decide) (by decide)
  obtain ⟨⟨p, hp, hpaths⟩, hok⟩ :
      (∃ p ∈ (Procedure.parse relabel.source).toOption, p.writePaths =
        .ok [⟨[.key "user", .key "name"], .assign⟩, ⟨[.key "marks", .key "old"], .mapDelete⟩]) ∧
        (relabel.apply (.node ⟨3⟩) [] registry).1.toOption.isSome := by
    decide +kernel
  have hfree : ∀ path ∈ [(⟨[.key "user", .key "name"], .assign⟩ : WritePath),
      ⟨[.key "marks", .key "old"], .mapDelete⟩], ¬ path.Touches ["user", "home"] := by
    rintro path hpath ⟨keys, hmatches, htouches⟩
    simp only [List.mem_cons, List.not_mem_nil, or_false] at hpath
    rcases hpath with rfl | rfl
    · simp [WritePath.Matches, Segment.Matches, List.forall₂_cons_left_iff] at hmatches
      subst hmatches
      revert htouches
      decide
    · simp [WritePath.Matches, Segment.Matches, List.forall₂_cons_left_iff] at hmatches
      subst hmatches
      revert htouches
      decide
  cases happly : relabel.apply (.node ⟨3⟩) [] registry with
  | mk result w' =>
      cases result with
      | error e =>
          rw [happly] at hok
          cases hok
      | ok out =>
          exact ⟨out, w', rfl, rfl, at?_preserved hsound (eq_ok_of_mem_toOption hp)
            hpaths happly hfree rfl⟩

end Update

end PathCopy
