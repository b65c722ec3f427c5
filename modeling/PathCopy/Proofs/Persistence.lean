import PathCopy.Proofs.Ownership

/-!
Persistence. A caller makes values, applies updates to what it holds, keeps results, freezes values
and lets go of others, in any order. Whatever it holds at some moment has the same contents ever
after; only more of it may be frozen.
-/

namespace PathCopy

/-- A process that applies updates: its workspace and the values that it holds. -/
structure Caller where
  workspace : Workspace
  held : List Value

namespace Caller

def store (c : Caller) : Store := c.workspace.store

/-- One thing that a caller does. An update may fail; what it is given is within reach of the
caller, and whatever the caller holds counts as held while it runs. -/
inductive Step (c : Caller) : Caller → Prop
  | update (u : Update) (root : Value) (others : List Value)
      (covers : c.held ⊆ u.kept root others)
      (within : ∀ v ∈ u.kept root others, c.store.Within c.held v) :
      Step c ⟨(u.apply root others c.workspace).2,
        (u.apply root others c.workspace).1.toOption.toList ++ c.held⟩
  | make (body : Body) (within : ∀ v ∈ body.children, c.store.Within c.held v) :
      Step c ⟨{ c.workspace with store := (c.store.alloc body).2 },
        (c.store.alloc body).1 :: c.held⟩
  | freeze (v : Value) : Step c ⟨{ c.workspace with store := c.store.deepFreeze v }, c.held⟩
  | hold (held : List Value) (within : ∀ v ∈ held, c.store.Within c.held v) :
      Step c ⟨c.workspace, held⟩
  | configure (settings : Settings) : Step c ⟨{ c.workspace with settings }, c.held⟩

abbrev Steps : Caller → Caller → Prop := Relation.ReflTransGen Step

variable {c c' : Caller} {v w : Value} {r : Ref}

theorem Step.grown (h : Step c c') (hsound : c.store.Sound c.held) :
    c.store.Grown c.held c'.store ∧ ∀ v ∈ c'.held, c.store.Available c.held c'.store v := by
  have hheld : ∀ {st'}, ∀ v ∈ c.held, c.store.Available c.held st' v := fun v hv =>
    Store.available_of_within (Store.within_of_mem hv)
  cases h with
  | update u root others covers within =>
      have hupdate := u.apply_grown (hsound.mono within)
      refine ⟨hupdate.1.widen within, fun v hv => ?_⟩
      rcases List.mem_append.mp hv with hv | hv
      · cases hresult : (u.apply root others c.workspace).1 with
        | error e =>
            rw [hresult] at hv
            cases hv
        | ok result =>
            rw [hresult] at hv
            rw [List.mem_singleton.mp hv]
            exact (hupdate.2 result hresult).widen within
      · exact hheld v hv
  | make body within =>
      have halloc := (Store.grown_refl c.store c.held).alloc fun v hv =>
        Store.available_of_within (within v hv)
      exact ⟨halloc.1, List.forall_mem_cons.mpr ⟨halloc.2, hheld⟩⟩
  | freeze v =>
      exact ⟨(Store.grown_refl c.store c.held).freeze (Store.frozen_deepFreeze _ v), hheld⟩
  | hold held within =>
      exact ⟨Store.grown_refl _ _, fun v hv => Store.available_of_within (within v hv)⟩
  | configure settings => exact ⟨Store.grown_refl _ _, hheld⟩

theorem Step.sound (h : Step c c') (hsound : c.store.Sound c.held) : c'.store.Sound c'.held := by
  obtain ⟨hgrown, hheld⟩ := h.grown hsound
  exact hgrown.sound hsound hheld

/-- A run of a caller extends its store, and leaves no reference dangling. -/
theorem Steps.extends (h : Steps c c') (hsound : c.store.Sound c.held) :
    c.store.Extends c'.store ∧ c'.store.Sound c'.held := by
  induction h with
  | refl => exact ⟨Store.extends_refl _, hsound⟩
  | tail _ hstep ih => exact ⟨ih.1.trans (hstep.grown ih.2).1.toExtends, hstep.sound ih.2⟩

/-- Whatever a caller holds leads to the same nodes ever after, with the same contents. -/
theorem contents_unchanged (hsound : c.store.Sound c.held) (hsteps : Steps c c')
    (hv : v ∈ c.held) :
    (∀ w, c'.store.Reaches v w ↔ c.store.Reaches v w) ∧
      ∀ r, c.store.Reaches v (.node r) → c'.store.body r = c.store.body r ∧
        ((c.store.node r).frozen → (c'.store.node r).frozen) := by
  have hext := (Steps.extends hsteps hsound).1
  have hagree := hsound.agreeBelow hext (Store.within_of_mem hv)
  refine ⟨fun w => hagree.reaches_iff, fun r hr => ⟨hagree r hr, ?_⟩⟩
  exact hext.frozen (hsound r ⟨v, hv, hr⟩)

def sample : Caller where
  workspace := .fresh none ⟨#[⟨false, .record none (.ofList [("name", .text "old")])⟩]⟩
  held := [.node ⟨0⟩]

def rename : Update := ⟨"s => \x7b s.name = 'new' \x7d", none, [], ⟨none, some false⟩⟩

theorem contents_unchanged_rename :
    (rename.apply (.node ⟨0⟩) [] sample.workspace).1.toOption.isSome ∧
      (rename.apply (.node ⟨0⟩) [] sample.workspace).2.store.body ⟨0⟩ =
        .record none (.ofList [("name", .text "old")]) := by
  have hsound : sample.store.Sound sample.held := Store.Layered.sound (by decide) (by decide)
  have hstep : Step sample ⟨(rename.apply (.node ⟨0⟩) [] sample.workspace).2, _⟩ :=
    .update rename (.node ⟨0⟩) [] (List.Subset.refl sample.held) fun v hv =>
      Store.within_of_mem hv
  have hbody := (contents_unchanged hsound (.single hstep) List.mem_cons_self).2 ⟨0⟩ .refl
  exact ⟨by decide +kernel, hbody.1⟩

end Caller

end PathCopy
