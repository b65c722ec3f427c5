import PathCopy.Proofs.Sealing

/-!
Freezing by updates. Copying and running set no flag of a node that was there before; only the end of
an update does, and only if the update succeeds and its options ask for a frozen result. What is
frozen then is everything that the result reaches, with whatever the result shares with the caller.
-/

namespace PathCopy

open Store

namespace Store

/-- A store with all nodes of another one, none of which was frozen or thawed. -/
structure SameFlags (st st' : Store) : Prop where
  size_le : st.size ≤ st'.size
  frozen_eq : ∀ {r : Ref}, r.index < st.size → (st'.node r).frozen = (st.node r).frozen

variable {st st' : Store} {roots : List Value} {v : Value}

theorem SameFlags.alloc (h : st.SameFlags st') (body : Body) :
    st.SameFlags (st'.alloc body).2 where
  size_le := by
    rw [size_alloc]
    exact Nat.le_succ_of_le h.size_le
  frozen_eq hr := by
    rw [node_alloc_of_ne (Nat.ne_of_lt (Nat.lt_of_lt_of_le hr h.size_le)), h.frozen_eq hr]

theorem SameFlags.setBody (h : st.SameFlags st') (t : Ref) (body : Body) :
    st.SameFlags (st'.setBody t body) where
  size_le := by
    rw [size_setBody]
    exact h.size_le
  frozen_eq hr := by rw [frozen_setBody, h.frozen_eq hr]

/-- A copy leaves the flags alone: whatever is frozen in the end was there and frozen before. -/
theorem sameFlags_copy (hsound : st.Sound roots) (keepClass : Bool) (hv : st.Within roots v)
    (paths : List KeyPath) : st.SameFlags (st.copy keepClass v paths).2.store := by
  have hext := (st.copy_adds hsound keepClass hv paths).ext
  have honce := (KeyTree.copy_addsOnce hsound keepClass).1 [] v (.ofPaths paths) ⟨st, []⟩ hv
    (grown_refl st roots)
  refine ⟨hext.size_le, fun {r} hr => ?_⟩
  rw [Bool.eq_iff_iff]
  constructor
  · intro hfrozen
    exact (honce.frozen (Nat.lt_of_lt_of_le hr hext.size_le) hfrozen).2
  · exact hext.frozen hr

theorem Written.sameFlags {counts : Array Nat} {new : List Value} {keys : List String}
    {st₁ : Store} (hwritten : st₁.Written counts v new keys st') (h : st.SameFlags st₁) :
    st.SameFlags st' := by
  obtain ⟨-, -, -⟩ := hwritten
  exact h.setBody _ _

theorem Layered.sealed (h : st.Layered)
    (hfrozen : ∀ i < st.size, (st.node ⟨i⟩).frozen → ∀ v ∈ st.children ⟨i⟩, st.isFrozen v) :
    st.Sealed := by
  intro r s hr hs
  have hlt := index_lt_of_mem_children hs
  exact ⟨Nat.lt_trans (h r.index hlt _ hs) hlt, hfrozen r.index hlt hr _ hs⟩

/-- Freezing at the end: of the nodes that kept their flags so far, the value's own unfrozen ones
change theirs. -/
theorem SameFlags.deepFreeze (h : st.SameFlags st') (hsealed : st'.Sealed)
    (hsound : st'.Sound [v]) :
    (st'.deepFreeze v).isDeepFrozen v ∧
      ∀ r : Ref, r.index < st.size →
        (((st'.deepFreeze v).node r).frozen ≠ (st.node r).frozen ↔
          (st.node r).frozen = false ∧ (st'.deepFreeze v).Reaches v (.node r)) := by
  have hagree := (frozen_deepFreeze st' v).agreeBelow (v := v)
  have hflag : ∀ r : Ref, ((st'.deepFreeze v).node r).frozen ↔
      (st'.node r).frozen ∨ (st'.deepFreeze v).Reaches v (.node r) := by
    intro r
    rw [hsealed.frozen_deepFreeze_iff hsound, hagree.reaches_iff]
  refine ⟨isDeepFrozen_iff.mpr fun r hr => (hflag r).mpr (.inr hr), fun r hr => ?_⟩
  have hr' := hflag r
  rw [h.frozen_eq hr] at hr'
  cases hold : (st.node r).frozen with
  | false => simpa [hold] using hr'
  | true => simpa [hold] using hr'

end Store

variable {π : Policy} {kept : List Value} {base : ℕ} {st st' : Store}

/-- No step of a run sets a flag. -/
theorem sameFlags_invariant : Run.Invariant π kept base fun _ m => st.SameFlags m.store where
  drop h _ _ := h
  scalar _ h := h
  child h _ _ := h
  lookup h _ := h
  alloc h _ := h.alloc _
  define _ h _ _ := h
  wrote h hwrote _ _ := by
    cases hwrote with
    | assigned => exact h
    | stored _ hwritten => exact hwritten.sameFlags h
  enter h := h
  leave h _ := h

theorem Procedure.sameFlags_run (p : Procedure) (h : st.SameFlags st') (held : List Value)
    (captures : List (String × Value)) (state : Value) (arg : Option Value) :
    st.SameFlags (p.run held captures state arg st').2 := by
  have hinvariant : Run.Invariant .free [] 2 fun _ m => st.SameFlags m.store :=
    sameFlags_invariant
  have hafter : st.SameFlags (Machine.after (p.execute held captures state arg st')).store :=
    (hinvariant.execute (Run.enforced_free p.names _) (Policy.free_allowsBody p.body)
      (List.nil_subset _) h).1
  rw [run.eq_def]
  split
  · exact h
  · cases hexecute : p.execute held captures state arg st' with
    | error e m => rwa [hexecute] at hafter
    | ok flow m => rwa [hexecute] at hafter

namespace Update

variable {u : Update} {root : Value} {held : List Value} {w : Workspace}

/-- How an update of a store may end: with a store in which no flag has changed, or with one that
comes of freezing the result in it. -/
def Ends (st : Store) (freeze : Bool) (outcome : Except UpdateError Value × Workspace) : Prop :=
  ∃ st' : Store, st.SameFlags st' ∧ st'.Sealed ∧
    match outcome with
    | (.error _, w') => w'.store = st'
    | (.ok out, w') =>
        st'.Sound [out] ∧ w'.store = if freeze then st'.deepFreeze out else st'

theorem ends_error {st : Store} {freeze : Bool} {e : UpdateError} (hsealed : st.Sealed)
    (hstore : w.store = st) : Ends st freeze (.error e, w) :=
  ⟨st, ⟨Nat.le_refl _, fun _ => rfl⟩, hsealed, hstore⟩

theorem ends_applyPaths (hsealed : w.store.Sealed) (hsound : w.store.Sound (u.kept root held))
    (p : Procedure) (paths : List KeyPath) :
    Ends w.store (w.settings.effective u.options).1.freezeResult
      (u.applyPaths p paths root held w) := by
  have hcopy := copy_root_adds (u := u) hsound paths
  have hroot : w.store.Within (u.kept root held) root := within_of_mem List.mem_cons_self
  have hgrown := p.run_grown hsound hcopy.grown (hcopy.available _ List.mem_cons_self)
    (args_subset_kept u root held) (captures_subset_kept u root held)
  have hflags := p.sameFlags_run
    (sameFlags_copy hsound (w.settings.effective u.options).1.keepClass hroot paths)
    (u.kept root held) u.captures
    (w.store.copy (w.settings.effective u.options).1.keepClass root paths).1 u.args
  have hafter := p.run_sealed
    (hsealed.copy hsound (w.settings.effective u.options).1.keepClass hroot paths)
    (u.kept root held) u.captures
    (w.store.copy (w.settings.effective u.options).1.keepClass root paths).1 u.args
  unfold applyPaths
  dsimp only
  generalize p.run _ _ _ _ _ = ran at hgrown hflags hafter ⊢
  obtain ⟨result, st'⟩ := ran
  refine ⟨st', hflags, hafter, ?_⟩
  cases result with
  | error e => rfl
  | ok v =>
      refine ⟨hgrown.1.sound hsound (List.forall_mem_singleton.mpr (hgrown.2 v rfl)), ?_⟩
      unfold Workspace.finish
      split <;> rfl

/-- The stages before the run set no flag either; they do not even touch the store. -/
theorem ends_apply (hsealed : w.store.Sealed) (hsound : w.store.Sound (u.kept root held)) :
    Ends w.store (w.settings.effective u.options).1.freezeResult (u.apply root held w) := by
  unfold apply Workspace.compile
  cases w.cache.compile u.source with
  | mk result cache =>
  cases result with
  | error e => exact ends_error hsealed rfl
  | ok compiled =>
      dsimp only
      split
      · exact ends_error hsealed rfl
      split
      · exact ends_error hsealed rfl
      next paths _ =>
      exact ends_applyPaths (w := { w with cache }) hsealed hsound compiled.procedure paths

def thawed (u : Update) : Update := { u with options := ⟨u.options.keepClass, some false⟩ }

theorem apply_thawed (u : Update) (root : Value) (held : List Value) (w : Workspace) :
    (u.apply root held w).1 = (u.thawed.apply root held w).1 ∧
      (u.thawed.apply root held w).2.store.Frozen (u.apply root held w).2.store := by
  have hsame : ∀ st : Store, st.Frozen st := fun st => ⟨rfl, fun _ => rfl, fun _ => id⟩
  have hpaths : ∀ (w : Workspace) (p : Procedure) (paths : List KeyPath),
      (u.applyPaths p paths root held w).1 = (u.thawed.applyPaths p paths root held w).1 ∧
        (u.thawed.applyPaths p paths root held w).2.store.Frozen
          (u.applyPaths p paths root held w).2.store := by
    intro w p paths
    unfold applyPaths
    dsimp only [thawed, kept, Settings.effective, Settings.readMode, UpdateOptions.merge,
      UpdateOptions.resolve]
    split
    · exact ⟨rfl, hsame _⟩
    · exact ⟨rfl, frozen_finish _ _ _⟩
  unfold apply thawed
  dsimp only
  cases w.compile u.source with
  | mk result w₁ =>
  cases result with
  | error e => exact ⟨rfl, hsame _⟩
  | ok compiled =>
      dsimp only
      split
      · exact ⟨rfl, hsame _⟩
      split
      · exact ⟨rfl, hsame _⟩
      · exact hpaths w₁ compiled.procedure _

/-- Freezing by updates is exact. An update that fails, or that is not to freeze its result, leaves
the flag of every node as it was. One that freezes makes everything in its result frozen, and of
the nodes that were there before it changes the flags of those that were not frozen and that the
result reaches, and of no others. -/
theorem apply_freezes_exactly (hsealed : w.store.Sealed)
    (hsound : w.store.Sound (u.kept root held)) :
    let freeze := (w.settings.effective u.options).1.freezeResult
    match u.apply root held w with
    | (.error _, w') =>
        ∀ r : Ref, r.index < w.store.size → (w'.store.node r).frozen = (w.store.node r).frozen
    | (.ok out, w') =>
        (freeze = false → ∀ r : Ref, r.index < w.store.size →
          (w'.store.node r).frozen = (w.store.node r).frozen) ∧
        (freeze = true → w'.store.isDeepFrozen out ∧
          ∀ r : Ref, r.index < w.store.size →
            ((w'.store.node r).frozen ≠ (w.store.node r).frozen ↔
              (w.store.node r).frozen = false ∧ w'.store.Reaches out (.node r))) := by
  obtain ⟨st', hflags, hafter, hends⟩ := ends_apply hsealed hsound
  generalize (w.settings.effective u.options).1.freezeResult = freeze at hends
  generalize u.apply root held w = outcome at hends
  obtain ⟨_ | out, w'⟩ := outcome
  · dsimp only at hends ⊢
    rw [hends]
    exact fun r hr => hflags.frozen_eq hr
  · obtain ⟨hout, hstore⟩ := hends
    dsimp only
    rw [hstore]
    constructor
    · rintro rfl
      exact fun r hr => hflags.frozen_eq hr
    · rintro rfl
      exact hflags.deepFreeze hafter hout

/-- A caller that holds a record, whose list is in use elsewhere too, and a map that is frozen. -/
def shelf : Workspace where
  settings := .fresh none
  cache := .empty
  store := ⟨#[⟨false, .list []⟩, ⟨true, .map (.ofList [])⟩,
    ⟨false, .record none (.ofList [("items", .node ⟨0⟩), ("label", .text "old")])⟩,
    ⟨false, .list [.node ⟨0⟩]⟩]⟩

/-- An update that puts its argument into the record, and asks for a frozen result or leaves that to
the mode. -/
def attach (freezeResult : Option Bool) : Update :=
  ⟨"(s, a) => \x7b s.label = a \x7d", some (.node ⟨1⟩), [], ⟨none, freezeResult⟩⟩

theorem apply_freezes_exactly_attach :
    ∃ out ∈ ((attach none).apply (.node ⟨2⟩) [.node ⟨3⟩] shelf).1.toOption,
      ((attach none).apply (.node ⟨2⟩) [.node ⟨3⟩] shelf).2.store.isDeepFrozen out ∧
      (((attach none).apply (.node ⟨2⟩) [.node ⟨3⟩] shelf).2.store.node ⟨0⟩).frozen := by
  have hlayered : shelf.store.Layered := by decide
  have hsound : shelf.store.Sound ((attach none).kept (.node ⟨2⟩) [.node ⟨3⟩]) :=
    hlayered.sound (by decide)
  have hexact := apply_freezes_exactly (hlayered.sealed (by decide)) hsound
  obtain ⟨hresult, hstore⟩ := apply_thawed (attach none) (.node ⟨2⟩) [.node ⟨3⟩] shelf
  obtain ⟨out, hout, hitems⟩ :
      ∃ out ∈ ((attach none).thawed.apply (.node ⟨2⟩) [.node ⟨3⟩] shelf).1.toOption,
        ((((attach none).thawed.apply (.node ⟨2⟩) [.node ⟨3⟩] shelf).2.store.handles [out]).getD 0 0
          ≠ 0) := by decide +kernel
  obtain ⟨_, hmem, hreach⟩ := (handles_ne_zero_iff (r := ⟨0⟩) (by decide +kernel)).mp hitems
  rw [List.mem_singleton.mp hmem] at hreach
  replace hreach := (hstore.agreeBelow (v := out)).reaches_iff.mpr hreach
  rw [← hresult] at hout
  refine ⟨out, hout, ?_⟩
  generalize (attach none).apply (.node ⟨2⟩) [.node ⟨3⟩] shelf = outcome at *
  obtain ⟨result, w'⟩ := outcome
  obtain rfl : result = .ok out := eq_ok_of_mem_toOption hout
  obtain ⟨hdeep, hchanged⟩ := hexact.2 rfl
  exact ⟨hdeep, Bool.eq_true_of_not_eq_false ((hchanged ⟨0⟩ (by decide)).mpr ⟨rfl, hreach⟩)⟩

end Update

end PathCopy
