import Mathlib.Data.List.Basic
import PathCopy.Copy

/-!
The steps of a copy. A node that a path passes is copied in three steps: the copy starts from some
first contents, the children that paths pass are copied, and these copies are put into the first
contents. What every step keeps, a whole copy keeps; so a property of copies needs one argument for
each kind of step, whatever the containers are.
-/

namespace PathCopy

def Body.fill (new : List (String × Value)) : Body → Body
  | date ms => .date ms
  | list items => .list (setItems items new)
  | map entries => .map (entries.insertAll new)
  | record cls fields => .record cls (fields.insertAll new)

/-- The contents that the copy of a container starts from: a map without the dropped entries, a
record on top of what its class gives. -/
def Copying.base (c : Copying) (keepClass : Bool) (dropped : List String) : Body → Body × Copying
  | .date ms => (.date ms, c)
  | .list items => (.list items, c)
  | .map entries => (.map (eraseKeys entries dropped), c)
  | .record cls fields =>
    (.record (c.recordBase keepClass cls fields).1 (c.recordBase keepClass cls fields).2.1,
      (c.recordBase keepClass cls fields).2.2)

theorem Body.eq_date {body : Body} (h : body.kind = .date) : ∃ ms, body = .date ms := by
  cases body with
  | date ms => exact ⟨ms, rfl⟩
  | list items => cases h
  | map entries => cases h
  | record cls fields => cases h

section Steps

variable {keepClass : Bool} {trail : List String} {v w : Value} {r : Ref} {body : Body}
  {tree : KeyTree} {branches rest : KeyBranches} {ends : List Effect} {key : String} {c : Copying}

theorem KeyTree.eq_leaf (h : tree.isLeaf) : ∃ ends, tree = .node ends .nil := by
  obtain ⟨ends, branches⟩ := tree
  cases branches with
  | nil => exact ⟨ends, rfl⟩
  | cons key tree rest => cases h

theorem KeyTree.ne_leaf (h : tree.isLeaf = false) (ends : List Effect) : tree ≠ .node ends .nil := by
  rintro rfl
  cases h

theorem KeyTree.copy_leaf (h : tree.isLeaf) : tree.copy keepClass trail v c = (v, c) := by
  obtain ⟨ends, rfl⟩ := eq_leaf h
  rw [copy]

theorem KeyTree.copy_scalar {a : Scalar} (hne : branches ≠ .nil) :
    (node ends branches).copy keepClass trail (.scalar a) c =
      (.scalar a, c.warn (.pastScalar trail a.kind)) := by
  rw [copy]
  exact hne

theorem KeyTree.copy_date {ms : Int} (hne : branches ≠ .nil) (hr : c.store.body r = .date ms) :
    (node ends branches).copy keepClass trail (.node r) c = c.alloc (.date ms) := by
  simp only [copy.eq_3 _ _ _ _ _ _ hne, hr]

theorem KeyTree.copy_container (hne : branches ≠ .nil) (hkind : (c.store.body r).kind ≠ .date) :
    (node ends branches).copy keepClass trail (.node r) c =
      let (first, c₁) := c.base keepClass branches.dropped (c.store.body r)
      let (new, c₂) := branches.copyChildren keepClass trail (c.store.body r) c₁
      c₂.alloc (first.fill new) := by
  rw [copy.eq_3 _ _ _ _ _ _ hne]
  cases hr : c.store.body r with
  | date ms => exact absurd (congrArg Body.kind hr) hkind
  | list items => rfl
  | map entries => rfl
  | record cls fields => rfl

theorem KeyBranches.copyChildren_leaf :
    (cons key (.node ends .nil) rest).copyChildren keepClass trail body c =
      rest.copyChildren keepClass trail body c := by
  rw [copyChildren]

theorem KeyBranches.copyChildren_absent (h : tree.isLeaf = false) (hchild : body.child? key = none) :
    (cons key tree rest).copyChildren keepClass trail body c =
      rest.copyChildren keepClass trail body (c.warn (.absentKey trail key)) := by
  simp only [copyChildren.eq_3 _ _ _ _ _ _ _ (KeyTree.ne_leaf h), hchild]

theorem KeyBranches.copyChildren_child (h : tree.isLeaf = false) (hchild : body.child? key = some w) :
    (cons key tree rest).copyChildren keepClass trail body c =
      let (w', c₁) := tree.copy keepClass (trail ++ [key]) w c
      let (new, c₂) := rest.copyChildren keepClass trail body c₁
      ((key, w') :: new, c₂) := by
  simp only [copyChildren.eq_3 _ _ _ _ _ _ _ (KeyTree.ne_leaf h), hchild]

end Steps

/-- The copy of a container: what it starts from, and what the copies of its children are. -/
structure ContainerCopy (keepClass : Bool) (trail : List String) (branches : KeyBranches)
    (body : Body) (c : Copying) (first : Body) (c₁ : Copying) (new : List (String × Value))
    (c₂ : Copying) : Prop where
  passed : branches ≠ .nil
  kind : body.kind ≠ .date
  base : c.base keepClass branches.dropped body = (first, c₁)
  children : branches.copyChildren keepClass trail body c₁ = (new, c₂)

/-- The copy of a child, and the copies of those after it. -/
structure ChildCopy (keepClass : Bool) (trail : List String) (key : String) (tree : KeyTree)
    (rest : KeyBranches) (body : Body) (c : Copying) (w w' : Value) (c₁ : Copying)
    (new : List (String × Value)) (c₂ : Copying) : Prop where
  passed : tree.isLeaf = false
  child : body.child? key = some w
  first : tree.copy keepClass (trail ++ [key]) w c = (w', c₁)
  others : rest.copyChildren keepClass trail body c₁ = (new, c₂)

/-- What every step of a copy keeps, a copy and the copies of children keep. -/
theorem KeyTree.copy_steps (keepClass : Bool)
    {P : List String → Value → KeyTree → Copying → Value × Copying → Prop}
    {Q : List String → Body → KeyBranches → Copying → List (String × Value) × Copying → Prop}
    (shared : ∀ trail v tree c, tree.isLeaf → P trail v tree c (v, c))
    (scalar : ∀ trail a ends branches c, branches ≠ .nil →
      P trail (.scalar a) (.node ends branches) c (.scalar a, c.warn (.pastScalar trail a.kind)))
    (date : ∀ trail r ms ends branches c, branches ≠ .nil → c.store.body r = .date ms →
      P trail (.node r) (.node ends branches) c (c.alloc (.date ms)))
    (container : ∀ trail r ends branches c first c₁ new c₂,
      ContainerCopy keepClass trail branches (c.store.body r) c first c₁ new c₂ →
      Q trail (c.store.body r) branches c₁ (new, c₂) →
      P trail (.node r) (.node ends branches) c (c₂.alloc (first.fill new)))
    (none : ∀ trail body c, Q trail body .nil c ([], c))
    (leaf : ∀ trail body key ends rest c,
      Q trail body rest c (rest.copyChildren keepClass trail body c) →
      Q trail body (.cons key (.node ends .nil) rest) c (rest.copyChildren keepClass trail body c))
    (absent : ∀ trail body key tree rest c c', tree.isLeaf = false →
      body.child? key = Option.none → c.warn (.absentKey trail key) = c' →
      Q trail body rest c' (rest.copyChildren keepClass trail body c') →
      Q trail body (.cons key tree rest) c (rest.copyChildren keepClass trail body c'))
    (child : ∀ trail body key tree rest c w w' c₁ new c₂,
      ChildCopy keepClass trail key tree rest body c w w' c₁ new c₂ →
      P (trail ++ [key]) w tree c (w', c₁) → Q trail body rest c₁ (new, c₂) →
      Q trail body (.cons key tree rest) c ((key, w') :: new, c₂)) :
    (∀ trail v tree c, P trail v tree c (tree.copy keepClass trail v c)) ∧
      ∀ trail body branches c,
        Q trail body branches c (branches.copyChildren keepClass trail body c) := by
  -- What ends at a tree changes nothing in its own copy, so the induction is on the branches.
  have hnode : ∀ {branches : KeyBranches} (ends : List Effect),
      (∀ trail body c, Q trail body branches c (branches.copyChildren keepClass trail body c)) →
      ∀ trail v c, P trail v (.node ends branches) c
        ((KeyTree.node ends branches).copy keepClass trail v c) := by
    intro branches ends ih trail v c
    by_cases hne : branches = .nil
    · subst hne
      rw [copy_leaf rfl]
      exact shared trail v _ c rfl
    · cases v with
      | scalar a =>
          rw [copy_scalar hne]
          exact scalar trail a ends branches c hne
      | node r =>
          by_cases hkind : (c.store.body r).kind = .date
          · obtain ⟨ms, hr⟩ := Body.eq_date hkind
            rw [copy_date hne hr]
            exact date trail r ms ends branches c hne hr
          · rw [copy_container hne hkind]
            exact container trail r ends branches c _ _ _ _ ⟨hne, hkind, rfl, rfl⟩ (ih _ _ _)
  have hcons : ∀ (key : String) (tree : KeyTree) (rest : KeyBranches),
      (∀ trail v c, P trail v tree c (tree.copy keepClass trail v c)) →
      (∀ trail body c, Q trail body rest c (rest.copyChildren keepClass trail body c)) →
      ∀ trail body c, Q trail body (.cons key tree rest) c
        ((KeyBranches.cons key tree rest).copyChildren keepClass trail body c) := by
    intro key tree rest ih ihrest trail body c
    cases hleaf : tree.isLeaf with
    | true =>
        obtain ⟨ends, rfl⟩ := eq_leaf hleaf
        rw [KeyBranches.copyChildren_leaf]
        exact leaf trail body key ends rest c (ihrest trail body c)
    | false =>
        cases hchild : body.child? key with
        | none =>
            rw [KeyBranches.copyChildren_absent hleaf hchild]
            exact absent trail body key tree rest c _ hleaf hchild rfl (ihrest _ _ _)
        | some w =>
            rw [KeyBranches.copyChildren_child hleaf hchild]
            exact child trail body key tree rest c w _ _ _ _ ⟨hleaf, hchild, rfl, rfl⟩
              (ih _ _ _) (ihrest _ _ _)
  have hnil : ∀ trail body c, Q trail body .nil c
      (KeyBranches.nil.copyChildren keepClass trail body c) := by
    intro trail body c
    rw [KeyBranches.copyChildren]
    exact none trail body c
  have hbranches : ∀ (branches : KeyBranches) trail body c,
      Q trail body branches c (branches.copyChildren keepClass trail body c) :=
    @KeyBranches.rec (fun tree => ∀ trail v c, P trail v tree c (tree.copy keepClass trail v c)) _
      (fun ends _ ih => hnode ends ih) hnil hcons
  refine ⟨fun trail v tree c => ?_, fun trail body branches c => hbranches branches trail body c⟩
  obtain ⟨ends, branches⟩ := tree
  exact hnode ends (hbranches branches) trail v c

end PathCopy
