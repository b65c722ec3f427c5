import PathCopy.Proofs.Ownership
import PathCopy.Proofs.Singles

/-!
Sealing. A frozen node heads a frozen subtree: nodes are made unfrozen, only unfrozen nodes are
written, and freezing goes down from a value until it meets what was frozen before. So a node can
tell by its own flag whether everything below it is frozen, and freezing may stop where it does.
-/

namespace PathCopy

namespace Store

/-- A frozen node refers only to frozen nodes of the store. -/
def Sealed (st : Store) : Prop :=
  ∀ r s : Ref, (st.node r).frozen → .node s ∈ st.children r →
    s.index < st.size ∧ (st.node s).frozen

/-- As `Sealed`, while the nodes in `work` are still to be frozen. -/
def SealedBut (st : Store) (work : List Value) : Prop :=
  ∀ r s : Ref, (st.node r).frozen → .node s ∈ st.children r →
    s.index < st.size ∧ ((st.node s).frozen ∨ .node s ∈ work)

variable {st st' : Store} {roots work : List Value} {v : Value} {r t : Ref} {body : Body}

theorem sealedBut_nil : st.SealedBut [] ↔ st.Sealed := by simp [SealedBut, Sealed]

theorem sealed_empty : Store.empty.Sealed := by
  intro r s _ hs
  have hnone : Store.empty.children r = [] := children_of_size_le (Nat.zero_le r.index)
  rw [hnone] at hs
  simp at hs

/-! ### Reading the flags -/

theorem Sealed.frozen_of_reaches {s : Ref} (h : st.Sealed) (hr : (st.node r).frozen)
    (hs : st.Reaches (.node r) (.node s)) : (st.node s).frozen :=
  hs.inherit (P := fun v => ∀ s, v = .node s → (st.node s).frozen)
    (by
      rintro s ⟨⟩
      exact hr)
    (by
      rintro q hq c hc s rfl
      exact (h q s (hq q rfl) hc).2)
    s rfl

theorem isDeepFrozen_iff :
    st.isDeepFrozen v ↔ ∀ r : Ref, st.Reaches v (.node r) → (st.node r).frozen := by
  rw [isDeepFrozen, List.all_eq_true]
  constructor
  · intro hall r hr
    rcases Nat.lt_or_ge r.index st.size with hlt | hge
    · have hmet : (st.handles [v]).getD r.index 0 ≠ 0 :=
        (handles_ne_zero_iff hlt).mpr ⟨v, List.mem_cons_self, hr⟩
      have hi := hall r.index (List.mem_range.mpr hlt)
      rw [Bool.or_eq_true, beq_iff_eq] at hi
      exact hi.resolve_left hmet
    · rw [node_of_size_le st r hge]
  · intro hall i hi
    rw [Bool.or_eq_true, beq_iff_eq]
    by_cases hmet : (st.handles [v]).getD i 0 = 0
    · exact .inl hmet
    · obtain ⟨u, hu, hreach⟩ := (handles_ne_zero_iff (r := ⟨i⟩) (List.mem_range.mp hi)).mp hmet
      rw [List.mem_singleton.mp hu] at hreach
      exact .inr (hall ⟨i⟩ hreach)

/-- The flag of a node speaks for everything below it. -/
theorem Sealed.isFrozen_eq (h : st.Sealed) (v : Value) : st.isFrozen v = st.isDeepFrozen v := by
  rw [Bool.eq_iff_iff, isDeepFrozen_iff]
  cases v with
  | scalar a =>
      refine iff_of_true rfl fun r hr => ?_
      cases reaches_scalar hr
  | node r => exact ⟨fun hr s => h.frozen_of_reaches hr, fun hall => hall r (reaches_refl st _)⟩

/-! ### Freezing -/

/-- What is frozen already may be passed over. -/
theorem SealedBut.skip (h : st.SealedBut (v :: work)) (hv : st.isFrozen v) : st.SealedBut work := by
  intro r s hr hs
  refine (h r s hr hs).imp_right fun hsealed => ?_
  rcases hsealed with hfrozen | hmem
  · exact .inl hfrozen
  · rcases List.mem_cons.mp hmem with rfl | hmem
    · exact .inl hv
    · exact .inr hmem

/-- A node that is frozen owes it to its children that they be frozen. -/
theorem SealedBut.visit (h : st.SealedBut (.node r :: work)) (hr : r.index < st.nodes.size)
    (hsound : st.Sound (.node r :: work)) :
    SealedBut ⟨st.nodes.set r.index { st.nodes[r.index] with frozen := true }⟩
      (st.children r ++ work) := by
  have hset := frozen_set st hr
  intro q s hq hs
  rw [children, hset.body_eq, ← children] at hs
  rw [hset.size_eq]
  by_cases hqr : r.index = q.index
  · obtain rfl : r = q := Ref.eq_of_index_eq hqr
    exact ⟨hsound s ⟨_, List.mem_cons_self, reaches_of_mem_children hs⟩,
      .inr (List.mem_append_left work hs)⟩
  · rw [node_set_frozen st hr, if_neg hqr] at hq
    obtain ⟨hlt, hfrozen | hmem⟩ := h q s hq hs
    · exact ⟨hlt, .inl (hset.frozen s hfrozen)⟩
    · refine ⟨hlt, (List.mem_cons.mp hmem).imp ?_ (List.mem_append_right _)⟩
      rintro ⟨⟩
      rw [node_set_frozen st hr, if_pos rfl]

theorem sound_visit {v : Value} (hsound : st.Sound (v :: work)) : st.Sound work :=
  hsound.mono fun _ hu => within_of_mem (List.mem_cons_of_mem _ hu)

theorem node_eq_getElem (hr : r.index < st.nodes.size) : st.node r = st.nodes[r.index] := by
  rw [node, Array.getD_eq_getD_getElem?, Array.getElem?_eq_getElem hr]
  rfl

theorem children_eq_getElem (hr : r.index < st.nodes.size) :
    st.children r = st.nodes[r.index].body.children := by
  rw [children, Store.body, node_eq_getElem hr]

/-- After freezing the frozen nodes head frozen subtrees. -/
theorem SealedBut.freezeAll (h : st.SealedBut work) (hsound : st.Sound work) :
    (st.freezeAll work).Sealed := by
  fun_induction st.freezeAll work with
  | case1 st => exact sealedBut_nil.mp h
  | case2 st a work ih => exact ih (h.skip rfl) (sound_visit hsound)
  | case3 st r work hr hfrozen ih =>
      rw [← node_eq_getElem hr] at hfrozen
      exact ih (h.skip hfrozen) (sound_visit hsound)
  | case4 st r work hr hfrozen ih =>
      rw [← children_eq_getElem hr] at ih ⊢
      refine ih (h.visit hr hsound) ((frozen_set st hr).sound (hsound.mono fun u hu => ?_))
      rcases List.mem_append.mp hu with hu | hu
      · exact .inr ⟨_, List.mem_cons_self, reaches_of_mem_children hu⟩
      · exact within_of_mem (List.mem_cons_of_mem _ hu)
  | case5 st r work hr ih =>
      have hfrozen : (st.node r).frozen := by rw [node_of_size_le st r (Nat.le_of_not_lt hr)]
      exact ih (h.skip hfrozen) (sound_visit hsound)

theorem isFrozen_freezeAll (hv : v ∈ work) : (st.freezeAll work).isFrozen v := by
  -- What is frozen stays frozen, so each value has to be followed up to its turn only.
  have hkeep : ∀ {st : Store} (work : List Value) {v : Value}, st.isFrozen v →
      (st.freezeAll work).isFrozen v := by
    intro st work v hv
    cases v with
    | scalar a => rfl
    | node r => exact (frozen_freezeAll st work).frozen r hv
  fun_induction st.freezeAll work with
  | case1 st => simp at hv
  | case2 st a work ih =>
      rcases List.mem_cons.mp hv with rfl | hv
      · rfl
      · exact ih hv
  | case3 st r work hr hfrozen ih =>
      rw [← node_eq_getElem hr] at hfrozen
      rcases List.mem_cons.mp hv with rfl | hv
      · exact hkeep work hfrozen
      · exact ih hv
  | case4 st r work hr hfrozen ih =>
      rcases List.mem_cons.mp hv with rfl | hv
      · refine hkeep _ ?_
        rw [isFrozen, node_set_frozen st hr, if_pos rfl]
      · exact ih (List.mem_append_right _ hv)
  | case5 st r work hr ih =>
      rcases List.mem_cons.mp hv with rfl | hv
      · refine hkeep work ?_
        rw [isFrozen, node_of_size_le st r (Nat.le_of_not_lt hr)]
      · exact ih hv

theorem reachable_of_freezeAll (h : ((st.freezeAll work).node t).frozen) :
    (st.node t).frozen ∨ st.Reachable work t := by
  have hgrow : ∀ {st : Store} {v : Value} {work : List Value}, st.Reachable work t →
      st.Reachable (v :: work) t := fun ht => ht.mono (List.subset_cons_self _ _)
  fun_induction st.freezeAll work with
  | case1 st => exact .inl h
  | case2 st a work ih => exact (ih h).imp_right hgrow
  | case3 st r work hr hfrozen ih => exact (ih h).imp_right hgrow
  | case4 st r work hr hfrozen ih =>
      rw [← children_eq_getElem hr] at ih h
      rcases ih h with ht | ⟨u, hu, hreach⟩
      · rw [node_set_frozen st hr] at ht
        split at ht
        · next heq =>
          obtain rfl : r = t := Ref.eq_of_index_eq heq
          exact .inr (reachable_of_mem List.mem_cons_self)
        · exact .inl ht
      · rw [(frozen_set st hr).agreeBelow.reaches_iff] at hreach
        rcases List.mem_append.mp hu with hu | hu
        · exact .inr ⟨_, List.mem_cons_self, (reaches_of_mem_children hu).trans hreach⟩
        · exact .inr ⟨u, List.mem_cons_of_mem _ hu, hreach⟩
  | case5 st r work hr ih => exact (ih h).imp_right hgrow

theorem Sealed.deepFreeze (h : st.Sealed) (hsound : st.Sound [v]) : (st.deepFreeze v).Sealed :=
  SealedBut.freezeAll (fun r s hr hs => (h r s hr hs).imp_right .inl) hsound

/-- Freezing sets the flags of the nodes that the value reaches and no others, although it stops at
what was frozen before. -/
theorem Sealed.frozen_deepFreeze_iff (h : st.Sealed) (hsound : st.Sound [v]) :
    ((st.deepFreeze v).node r).frozen ↔ (st.node r).frozen ∨ st.Reaches v (.node r) := by
  constructor
  · intro hr
    refine (reachable_of_freezeAll hr).imp_right ?_
    rintro ⟨u, hu, hreach⟩
    rwa [List.mem_singleton.mp hu] at hreach
  · rintro (hr | hr)
    · exact (frozen_deepFreeze st v).frozen r hr
    · cases v with
      | scalar a => cases reaches_scalar hr
      | node q =>
          refine (h.deepFreeze hsound).frozen_of_reaches
            (isFrozen_freezeAll (v := .node q) List.mem_cons_self) ?_
          exact (frozen_deepFreeze st (.node q)).agreeBelow.reaches_iff.mpr hr

/-! ### What keeps a store sealed -/

/-- A store stays sealed when unfrozen nodes are added. -/
theorem Sealed.grow (h : st.Sealed) (hext : st.Extends st')
    (hnew : ∀ r : Ref, r.index < st'.size → (st'.node r).frozen →
      r.index < st.size ∧ (st.node r).frozen) : st'.Sealed := by
  intro r s hr hs
  obtain ⟨hlt, hfrozen⟩ := hnew r (index_lt_of_mem_children hs) hr
  rw [children, hext.body_eq hlt, ← children] at hs
  obtain ⟨hs', hfrozen'⟩ := h r s hfrozen hs
  exact ⟨Nat.lt_of_lt_of_le hs' hext.size_le, hext.frozen hs' hfrozen'⟩

theorem Sealed.alloc (h : st.Sealed) (body : Body) : (st.alloc body).2.Sealed := by
  refine h.grow (extends_alloc st body) fun r hr hfrozen => ?_
  rw [node_alloc] at hfrozen
  split at hfrozen
  · cases hfrozen
  · next hne =>
    rw [size_alloc] at hr
    exact ⟨Nat.lt_of_le_of_ne (Nat.le_of_lt_succ hr) hne, hfrozen⟩

/-- A store stays sealed when an unfrozen node is written, whatever is written there. -/
theorem Sealed.setBody (h : st.Sealed) (ht : (st.node t).frozen = false) (body : Body) :
    (st.setBody t body).Sealed := by
  intro r s hr hs
  rw [frozen_setBody] at hr ⊢
  have hne : r ≠ t := by
    rintro rfl
    simp [ht] at hr
  rw [children_setBody_of_ne hne] at hs
  rw [size_setBody]
  exact h r s hr hs

theorem Sealed.copy (h : st.Sealed) (hsound : st.Sound roots) (keepClass : Bool)
    (hv : st.Within roots v) (paths : List KeyPath) :
    (st.copy keepClass v paths).2.store.Sealed := by
  have honce := (KeyTree.copy_addsOnce hsound keepClass).1 [] v (.ofPaths paths) ⟨st, []⟩ hv
    (grown_refl st roots)
  exact h.grow (st.copy_adds hsound keepClass hv paths).ext fun r => honce.frozen

theorem Written.sealed {counts : Array Nat} {new : List Value} {keys : List String}
    (h : st.Written counts v new keys st') (hsealed : st.Sealed) : st'.Sealed := by
  obtain ⟨-, hclaimed, -⟩ := h
  exact hsealed.setBody hclaimed.unfrozen _

end Store

open Store

/-! ### Runs and updates -/

theorem sealed_invariant {π : Policy} {kept : List Value} {base : ℕ} :
    Run.Invariant π kept base fun _ m => m.store.Sealed where
  drop h _ _ := h
  scalar _ h := h
  child h _ _ := h
  lookup h _ := h
  alloc h _ := h.alloc _
  define _ h _ _ := h
  wrote h hwrote _ _ := by
    cases hwrote with
    | assigned => exact h
    | stored _ hwritten => exact hwritten.sealed h
  enter h := h
  leave h _ := h

theorem Procedure.run_sealed (p : Procedure) {st : Store} (h : st.Sealed) (held : List Value)
    (captures : List (String × Value)) (state : Value) (arg : Option Value) :
    (p.run held captures state arg st).2.Sealed := by
  have hinvariant : Run.Invariant .free [] 2 fun _ m => m.store.Sealed := sealed_invariant
  have hafter : (Machine.after (p.execute held captures state arg st)).store.Sealed :=
    (hinvariant.execute (Run.enforced_free p.names _) (Policy.free_allowsBody p.body)
      (List.nil_subset _) h).1
  rw [run.eq_def]
  split
  · exact h
  · cases hexecute : p.execute held captures state arg st with
    | error e m => rwa [hexecute] at hafter
    | ok flow m => rwa [hexecute] at hafter

namespace Update

variable {u : Update} {root : Value} {held : List Value} {w : Workspace}

theorem applyPaths_sealed (h : w.store.Sealed) (hsound : w.store.Sound (u.kept root held))
    (p : Procedure) (paths : List KeyPath) : (u.applyPaths p paths root held w).2.store.Sealed := by
  have hcopy := copy_root_adds (u := u) hsound paths
  have hrun := p.run_grown hsound hcopy.grown (hcopy.available _ List.mem_cons_self)
    (args_subset_kept u root held) (captures_subset_kept u root held)
  have hsealed := p.run_sealed (h.copy hsound (w.settings.effective u.options).1.keepClass
    (within_of_mem List.mem_cons_self) paths) (u.kept root held) u.captures
    (w.store.copy (w.settings.effective u.options).1.keepClass root paths).1 u.args
  unfold applyPaths
  dsimp only
  split
  · exact hsealed
  · next v hv =>
    unfold Workspace.finish
    split
    · exact hsealed.deepFreeze
        (hrun.1.sound hsound (List.forall_mem_singleton.mpr (hrun.2 v hv)))
    · exact hsealed

/-- An update leaves a sealed store sealed, whether it ends well or fails. -/
theorem apply_sealed (h : w.store.Sealed) (hsound : w.store.Sound (u.kept root held)) :
    (u.apply root held w).2.store.Sealed := by
  have hcompile := store_compile w u.source
  unfold apply
  split
  · next e w' hw =>
    rw [hw] at hcompile
    exact hcompile ▸ h
  · next compiled w' hw =>
    rw [hw] at hcompile
    simp only at hcompile
    rw [← hcompile] at h hsound
    split
    · exact h
    · split
      · exact h
      · exact applyPaths_sealed h hsound compiled.procedure _

end Update

end PathCopy
