import PathCopy.Proofs.Copies
import PathCopy.Proofs.Invariants
import PathCopy.Update.Apply

/-!
Ownership. A run never writes what its caller holds: each write goes to a node that is reached from
a variable and from nowhere else, so the node is new. Over any number of updates the caller finds
the contents of everything that it holds as they were.
-/

namespace PathCopy

open Store

variable {st st' : Store} {kept : List Value} {base : ℕ} {π : Policy}

/-- During a run the old nodes keep their contents, and everything at hand is within reach of the
caller or new. -/
structure Fenced (st : Store) (kept vs : List Value) (m : Machine) : Prop where
  subset : kept ⊆ vs
  grown : st.Grown kept m.store
  bound : ∀ v ∈ m.scopes.values, st.Available kept m.store v
  held : ∀ v ∈ vs, st.Available kept m.store v

namespace Fenced

variable {vs new : List Value} {m m' : Machine} {w : Write}

/-- A write goes to a new node. -/
theorem wrote (h : Fenced st kept vs m) (hsound : st.Sound kept)
    (hwrote : Run.Wrote vs new w m m') (hnew : new ⊆ vs) : Fenced st kept vs m' := by
  cases hwrote with
  | assigned _ _ _ _ hv =>
      refine ⟨h.subset, h.grown, fun u hu => ?_, h.held⟩
      rcases Scopes.mem_values_setValue hu with rfl | hu
      · exact h.held _ (hnew hv)
      · exact h.bound u hu
  | @stored b st' hbound hwritten =>
      obtain ⟨others, hcounted, hheld, -⟩ := Run.counted_others hbound vs
      obtain ⟨t, body, rfl, hclaimed, hreach, halone, hbody⟩ := hwritten.exists_setBody hcounted
      have ht : st.Available kept m.store (.node t) :=
        h.grown.available_of_reaches hsound (h.bound _ (Scopes.mem_values_of_find? hbound)) hreach
      have htnew : st.size ≤ t.index := by
        rcases ht with ht | ⟨s, hs, hsize, -⟩
        · -- The caller would lead to the written node, and the write would have been refused.
          obtain ⟨u, hu, hut⟩ := within_node_iff.mp ht
          have hut' : m.store.Reaches u (.node t) :=
            (hsound.agreeBelow h.grown.toExtends (within_of_mem hu)).reaches_iff.mpr hut
          exact (halone u (List.mem_append_right _ (hheld (h.subset hu))) hut').elim
        · cases hs
          exact hsize
      have havailable : ∀ c ∈ body.children, st.Available kept m.store c := by
        intro c hc
        rcases hbody c hc with hc | hc
        · exact h.grown.available_child hsound ht hc
        · exact h.held c (hnew hc)
      have hsize : (m.store.setBody t body).size = m.store.size := size_setBody m.store t body
      exact ⟨h.subset, h.grown.setBody htnew havailable,
        fun u hu => (h.bound u hu).mono hsize.ge, fun u hu => (h.held u hu).mono hsize.ge⟩

theorem alloc (h : Fenced st kept vs m) {body : Body} (hbody : body.children ⊆ vs) :
    Fenced st kept ((m.store.alloc body).1 :: vs)
      { m with store := (m.store.alloc body).2 } := by
  have hgrown := h.grown.alloc fun c hc => h.held c (hbody hc)
  have hsize : m.store.size ≤ (m.store.alloc body).2.size := by simp
  refine ⟨List.subset_cons_of_subset _ h.subset, hgrown.1, fun u hu => ?_, fun u hu => ?_⟩
  · exact (h.bound u hu).mono hsize
  · rcases List.mem_cons.mp hu with rfl | hu
    · exact hgrown.2
    · exact (h.held u hu).mono hsize

theorem cons {v : Value} (h : Fenced st kept vs m) (hv : st.Available kept m.store v) :
    Fenced st kept (v :: vs) m :=
  ⟨List.subset_cons_of_subset v h.subset, h.grown, h.bound, List.forall_mem_cons.mpr ⟨hv, h.held⟩⟩

theorem rebind {ss : Scopes} (h : Fenced st kept vs m)
    (hss : ∀ v ∈ ss.values, v ∈ vs ∨ v ∈ m.scopes.values) :
    Fenced st kept vs { m with scopes := ss } :=
  ⟨h.subset, h.grown, fun v hv => (hss v hv).elim (h.held v) (h.bound v), h.held⟩

end Fenced

/-- Every run keeps the fence. -/
theorem fenced_invariant (hsound : st.Sound kept) :
    Run.Invariant π kept base (Fenced st kept) where
  drop h hsub hkept := ⟨hkept, h.grown, h.bound, fun v hv => h.held v (hsub hv)⟩
  scalar a h := h.cons (available_scalar a)
  child h hr hc := h.cons (h.grown.available_child hsound (h.held _ hr) hc)
  lookup h hb := h.cons (h.bound _ (Scopes.mem_values_of_find? hb))
  alloc h hbody := h.alloc hbody
  define _ h _ hv := by
    refine h.rebind fun u hu => ?_
    rcases Scopes.mem_values_define hu with rfl | hu
    · exact .inl hv
    · exact .inr hu
  wrote h hwrote hnew _ := h.wrote hsound hwrote hnew
  enter h := h.rebind fun _ hu => .inr hu
  leave h _ := h.rebind fun _ hu => .inr (Scopes.mem_values_tail hu)

/-! ### Updates -/

theorem mem_values_captureScope {p : Procedure} {captures : List (String × Value)} {v : Value}
    (h : v ∈ Scopes.values [p.captureScope captures]) : v ∈ captures.map Prod.snd := by
  induction captures using List.reverseRecOn with
  | nil => simp [Procedure.captureScope, Scopes.values] at h
  | append_singleton captures e ih =>
      obtain ⟨text, u⟩ := e
      rw [Procedure.captureScope, List.foldl_append, List.foldl_cons, List.foldl_nil] at h
      rw [List.map_append]
      dsimp only at h
      split at h
      · rcases Scopes.mem_values_put h with rfl | h
        · exact List.mem_append_right _ List.mem_cons_self
        · exact List.mem_append_left _ (ih h)
      · exact List.mem_append_left _ (ih h)

theorem mem_values_parameterScope {p : Procedure} {state : Value} {arg : Option Value} {v : Value}
    (h : v ∈ Scopes.values [p.parameterScope state arg]) :
    v = state ∨ v = arg.getD .undefined := by
  rw [Procedure.parameterScope.eq_def] at h
  split at h
  · cases h
  · exact .inl (List.mem_singleton.mp h)
  · rcases Scopes.mem_values_put h with h | h
    · exact .inr h
    · exact .inl (List.mem_singleton.mp h)

theorem spareArgument_subset (p : Procedure) (arg : Option Value) :
    p.spareArgument arg ⊆ arg.toList := by
  rw [Procedure.spareArgument.eq_def]
  split
  · exact List.Subset.refl _
  · exact List.nil_subset _

theorem mem_values_initial {p : Procedure} {captures : List (String × Value)} {state : Value}
    {arg : Option Value} {v : Value} (h : v ∈ (p.initial captures state arg st).scopes.values) :
    v = state ∨ v = .undefined ∨ v ∈ arg.toList ∨ v ∈ captures.map Prod.snd := by
  rcases List.mem_append.mp h with h | h
  · rcases mem_values_parameterScope (List.mem_append_left _ h) with rfl | rfl
    · exact .inl rfl
    · cases arg with
      | none => exact .inr (.inl rfl)
      | some a => exact .inr (.inr (.inl List.mem_cons_self))
  · exact .inr (.inr (.inr (mem_values_captureScope h)))

theorem fenced_initial {p : Procedure} {captures : List (String × Value)} {state : Value}
    {arg : Option Value} (hgrown : st.Grown kept st') (hstate : st.Available kept st' state)
    (harg : arg.toList ⊆ kept) (hcaptures : captures.map Prod.snd ⊆ kept) :
    Fenced st kept (p.spareArgument arg ++ kept) (p.initial captures state arg st') := by
  have hkept : ∀ v ∈ kept, st.Available kept st' v := fun v hv =>
    available_of_within (within_of_mem hv)
  refine ⟨List.subset_append_right _ kept, hgrown, fun v hv => ?_, fun v hv => ?_⟩
  · rcases mem_values_initial hv with rfl | rfl | hv | hv
    · exact hstate
    · exact available_scalar _
    · exact hkept v (harg hv)
    · exact hkept v (hcaptures hv)
  · rcases List.mem_append.mp hv with hv | hv
    · exact hkept v (harg (spareArgument_subset p arg hv))
    · exact hkept v hv

theorem Procedure.run_grown (hsound : st.Sound kept) (p : Procedure)
    {captures : List (String × Value)} {state : Value} {arg : Option Value}
    (hgrown : st.Grown kept st') (hstate : st.Available kept st' state)
    (harg : arg.toList ⊆ kept) (hcaptures : captures.map Prod.snd ⊆ kept) :
    st.Grown kept (p.run kept captures state arg st').2 ∧
      ∀ v, (p.run kept captures state arg st').1 = .ok v →
        st.Available kept (p.run kept captures state arg st').2 v := by
  rw [run.eq_def]
  split
  · refine ⟨hgrown, fun v hv => ?_⟩
    cases hv
    exact hstate
  · next s rest hparams =>
    have hafter := ((fenced_invariant hsound).execute (Run.enforced_free p.names _)
      (Policy.free_allowsBody p.body) (List.subset_append_right _ kept)
      (fenced_initial hgrown hstate harg hcaptures)).1
    cases hrun : p.execute kept captures state arg st' with
    | error e m =>
        rw [hrun] at hafter
        exact ⟨hafter.grown, nofun⟩
    | ok flow m =>
        rw [hrun] at hafter
        refine ⟨hafter.grown, fun v hv => ?_⟩
        cases hv
        cases hfind : m.scopes.find? s.name with
        | none => exact available_scalar _
        | some b => exact hafter.bound _ (Scopes.mem_values_of_find? hfind)

namespace Update

variable {u : Update} {root : Value} {held : List Value} {w : Workspace}

theorem args_subset_kept (u : Update) (root : Value) (held : List Value) :
    u.args.toList ⊆ u.kept root held := fun _ hv =>
  List.mem_cons_of_mem _ (List.mem_append_left _ (List.mem_append_left _ hv))

theorem captures_subset_kept (u : Update) (root : Value) (held : List Value) :
    u.captures.map Prod.snd ⊆ u.kept root held := fun _ hv =>
  List.mem_cons_of_mem _ (List.mem_append_left _ (List.mem_append_right _ hv))

theorem within_args : w.store.Within (u.kept root held) (u.args.getD .undefined) := by
  cases hargs : u.args with
  | none => exact within_scalar _
  | some v =>
      refine within_of_mem (args_subset_kept u root held ?_)
      simp [hargs]

theorem copy_root_adds (hsound : w.store.Sound (u.kept root held)) (paths : List KeyPath) :
    w.store.Adds (u.kept root held) w.store
      (w.store.copy (w.settings.effective u.options).1.keepClass root paths).2.store
      [(w.store.copy (w.settings.effective u.options).1.keepClass root paths).1] :=
  w.store.copy_adds hsound _ (within_of_mem List.mem_cons_self) paths

theorem frozen_finish (w : Workspace) (freeze : Bool) (v : Value) :
    w.store.Frozen (w.finish freeze v).store := by
  unfold Workspace.finish
  split
  · exact frozen_deepFreeze w.store v
  · exact ⟨rfl, fun _ => rfl, fun _ => id⟩

def executed (u : Update) (p : Procedure) (paths : List KeyPath) (root : Value)
    (held : List Value) (w : Workspace) : Machine :=
  let (copy, copying) := w.store.copy (w.settings.effective u.options).1.keepClass root paths
  Machine.after (p.execute (u.kept root held) u.captures copy u.args copying.store)

/-- An update after its paths are known: the execution on the copy of the root, and then either its
error, or what the state parameter holds in the end. -/
theorem applyPaths_eq {p : Procedure} {paths : List KeyPath} {s : Param} {rest : List Param}
    (hparams : p.params = s :: rest) :
    u.applyPaths p paths root held w =
      match p.execute (u.kept root held) u.captures
        (w.store.copy (w.settings.effective u.options).1.keepClass root paths).1 u.args
        (w.store.copy (w.settings.effective u.options).1.keepClass root paths).2.store with
      | .ok _ m => (.ok (((m.scopes.find? s.name).map Binding.value).getD .undefined),
          Workspace.finish ⟨(w.settings.effective u.options).2, w.cache, m.store⟩
            (w.settings.effective u.options).1.freezeResult
            (((m.scopes.find? s.name).map Binding.value).getD .undefined))
      | .error e m => (.error (.eval e), ⟨(w.settings.effective u.options).2, w.cache, m.store⟩) := by
  unfold applyPaths
  simp only [Procedure.run, hparams]
  cases p.execute _ _ _ _ _ <;> rfl

/-- The result of an update is what the state parameter holds in the end; after the execution the
update only freezes it. -/
theorem applyPaths_ok {p : Procedure} {paths : List KeyPath} {s : Param} {rest : List Param}
    {out : Value} {w' : Workspace} (hparams : p.params = s :: rest)
    (h : u.applyPaths p paths root held w = (.ok out, w')) :
    ∃ flow m, p.execute (u.kept root held) u.captures
        (w.store.copy (w.settings.effective u.options).1.keepClass root paths).1 u.args
        (w.store.copy (w.settings.effective u.options).1.keepClass root paths).2.store =
          .ok flow m ∧
      out = ((m.scopes.find? s.name).map Binding.value).getD .undefined ∧
      m.store.Frozen w'.store := by
  rw [applyPaths_eq hparams] at h
  generalize p.execute _ _ _ _ _ = result at h ⊢
  cases result with
  | error e m => simp at h
  | ok flow m =>
      cases h
      exact ⟨flow, m, rfl, rfl, frozen_finish ⟨_, _, m.store⟩ _ _⟩

theorem applyPaths_grown (hsound : w.store.Sound (u.kept root held)) (p : Procedure)
    (paths : List KeyPath) :
    w.store.Grown (u.kept root held) (u.applyPaths p paths root held w).2.store ∧
      ∀ v, (u.applyPaths p paths root held w).1 = .ok v →
        w.store.Available (u.kept root held) (u.applyPaths p paths root held w).2.store v := by
  have hcopy := copy_root_adds (u := u) hsound paths
  have hrun := p.run_grown hsound hcopy.grown (hcopy.available _ List.mem_cons_self)
    (args_subset_kept u root held) (captures_subset_kept u root held)
  unfold applyPaths
  dsimp only
  split
  · exact ⟨hrun.1, nofun⟩
  · next v hv =>
    have hfrozen := frozen_finish
      { w with
        settings := (w.settings.effective u.options).2
        store := (p.run (u.kept root held) u.captures
          (w.store.copy (w.settings.effective u.options).1.keepClass root paths).1 u.args
          (w.store.copy (w.settings.effective u.options).1.keepClass root paths).2.store).2 }
      (w.settings.effective u.options).1.freezeResult v
    refine ⟨hrun.1.freeze hfrozen, fun v' hv' => ?_⟩
    cases hv'
    exact (hrun.2 v hv).mono hfrozen.size_eq.ge

theorem store_compile (w : Workspace) (source : String) :
    (w.compile source).2.store = w.store := by
  unfold Workspace.compile
  split <;> rfl

/-- A text with write paths compiles to them, whether it was in the cache or not. -/
theorem compile_ok {p : Procedure} {paths : List WritePath} (w : Workspace)
    (hparse : Procedure.parse u.source = .ok p) (hpaths : p.writePaths = .ok paths) :
    ∃ compiled cache, w.compile u.source = (.ok compiled, { w with cache }) ∧
      compiled.procedure = p ∧ compiled.paths = paths := by
  have hsource : ∀ serial, Compiled.ofSource serial u.source = .ok ⟨serial, p, paths⟩ := by
    intro serial
    simp only [Compiled.ofSource, hparse, hpaths]
  unfold Workspace.compile
  split
  · next compiled cache hcache =>
    have hcompiled := PathCache.ofSource_of_compile hcache
    rw [hsource] at hcompiled
    have heq := (Except.ok.inj hcompiled).symm
    exact ⟨compiled, cache, rfl, congrArg Compiled.procedure heq, congrArg Compiled.paths heq⟩
  · next e cache hcache =>
    obtain ⟨serial, hfail⟩ := PathCache.ofSource_of_compile_error hcache
    rw [hsource] at hfail
    cases hfail

/-- An update whose text has write paths looks for their keys in the argument, and then copies the
root and runs the procedure. -/
theorem apply_eq {p : Procedure} {paths : List WritePath} (root : Value) (held : List Value)
    (w : Workspace)
    (hparse : Procedure.parse u.source = .ok p) (hpaths : p.writePaths = .ok paths) :
    ∃ w₁ : Workspace, w₁.store = w.store ∧ w₁.settings = w.settings ∧ u.apply root held w =
      if paths.isEmpty then (.error .emptyUpdate, w₁)
      else match resolvePaths w.store u.args paths with
        | .error e => (.error (.argument e), w₁)
        | .ok resolved => u.applyPaths p resolved root held w₁ := by
  obtain ⟨compiled, cache, hcompile, rfl, rfl⟩ := compile_ok w hparse hpaths
  refine ⟨{ w with cache }, rfl, rfl, ?_⟩
  cases hempty : compiled.paths.isEmpty with
  | true => simp [apply, hcompile, hempty]
  | false =>
      cases hresolve : resolvePaths w.store u.args compiled.paths with
      | error e => simp [apply, hcompile, hempty, hresolve]
      | ok resolved => simp [apply, hcompile, hempty, hresolve]

/-- An update that ends well compiled its text, found write paths, and had an argument for them. -/
theorem apply_ok {p : Procedure} {paths : List WritePath} {out : Value} {w' : Workspace}
    (hparse : Procedure.parse u.source = .ok p) (hpaths : p.writePaths = .ok paths)
    (h : u.apply root held w = (.ok out, w')) :
    ∃ w₁ resolved, w₁.store = w.store ∧ paths ≠ [] ∧
      resolvePaths w.store u.args paths = .ok resolved ∧
      u.applyPaths p resolved root held w₁ = (.ok out, w') := by
  obtain ⟨w₁, hstore, -, heq⟩ := apply_eq root held w hparse hpaths
  rw [heq] at h
  split at h
  · cases h
  · next hne =>
    split at h
    · cases h
    · next resolved hresolve =>
      exact ⟨w₁, resolved, hstore, by simpa using hne, hresolve, h⟩

/-- The result of an update is what the machine holds in the end, up to freezing. -/
theorem executed_ok {p : Procedure} {paths : List WritePath} {resolved : List KeyPath} {s : Param}
    {rest : List Param} {out : Value} {w' : Workspace}
    (hparse : Procedure.parse u.source = .ok p) (hpaths : p.writePaths = .ok paths)
    (hparams : p.params = s :: rest) (hresolve : resolvePaths w.store u.args paths = .ok resolved)
    (h : u.apply root held w = (.ok out, w')) :
    ∃ flow m, p.execute (u.kept root held) u.captures
        (w.store.copy (w.settings.effective u.options).1.keepClass root resolved).1 u.args
        (w.store.copy (w.settings.effective u.options).1.keepClass root resolved).2.store =
          .ok flow m ∧
      u.executed p resolved root held w = m ∧
      out = ((m.scopes.find? s.name).map Binding.value).getD .undefined ∧
      m.store.Frozen w'.store := by
  obtain ⟨w₁, hstore, hsettings, heq⟩ := apply_eq root held w hparse hpaths
  rw [heq, hresolve] at h
  split at h
  · cases h
  · obtain ⟨flow, m, hexecute, hout, hfrozen⟩ := applyPaths_ok hparams h
    rw [hstore, hsettings] at hexecute
    refine ⟨flow, m, hexecute, ?_, hout, hfrozen⟩
    simp only [executed]
    rw [hexecute, Machine.after]

/-- An update only adds nodes and freezes some; its result is new or within reach of the caller. -/
theorem apply_grown (hsound : w.store.Sound (u.kept root held)) :
    w.store.Grown (u.kept root held) (u.apply root held w).2.store ∧
      ∀ v, (u.apply root held w).1 = .ok v →
        w.store.Available (u.kept root held) (u.apply root held w).2.store v := by
  have hcompile := store_compile w u.source
  unfold apply
  split
  · next e w' h =>
    rw [h] at hcompile
    simp only at hcompile
    exact ⟨hcompile ▸ grown_refl _ _, nofun⟩
  · next compiled w' h =>
    rw [h] at hcompile
    simp only at hcompile
    split
    · exact ⟨hcompile ▸ grown_refl _ _, nofun⟩
    · split
      · exact ⟨hcompile ▸ grown_refl _ _, nofun⟩
      · next paths _ =>
        rw [← hcompile] at hsound ⊢
        exact applyPaths_grown hsound compiled.procedure paths

end Update

end PathCopy
