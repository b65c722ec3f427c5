import PathCopy.Proofs.Chains
import PathCopy.Value.Freeze

/-!
Stores that only grow. New nodes are made of values that were there before, or of earlier new nodes;
so whatever can be had afterwards was within reach before, or is new, and the old nodes are as they
were.
-/

namespace PathCopy

namespace Store

/-- The two stores hold the same contents in every node that the value reaches. -/
def AgreeBelow (st st' : Store) (v : Value) : Prop :=
  ∀ r, st.Reaches v (.node r) → st'.body r = st.body r

/-- A store with all nodes of another one; some may have been frozen. -/
structure Extends (st st' : Store) : Prop where
  size_le : st.size ≤ st'.size
  body_eq : ∀ {r : Ref}, r.index < st.size → st'.body r = st.body r
  frozen : ∀ {r : Ref}, r.index < st.size → (st.node r).frozen → (st'.node r).frozen

def Available (st : Store) (roots : List Value) (st' : Store) (v : Value) : Prop :=
  st.Within roots v ∨ ∃ s : Ref, v = .node s ∧ st.size ≤ s.index ∧ s.index < st'.size

/-- A store that has grown out of another one, with new nodes that are made of values from within
the roots and of new nodes. -/
structure Grown (st : Store) (roots : List Value) (st' : Store) : Prop extends Extends st st' where
  children : ∀ {r : Ref}, st.size ≤ r.index → ∀ {c : Value}, c ∈ st'.children r →
    st.Available roots st' c

variable {st st' st'' : Store} {roots roots' : List Value} {u v w : Value} {r s : Ref} {body : Body}
  {q : List String}

/-! ### Agreement -/

theorem AgreeBelow.child (h : st.AgreeBelow st' (.node r)) (hw : w ∈ st.children r) :
    st.AgreeBelow st' w :=
  fun s hs => h s ((reaches_of_mem_children hw).trans hs)

theorem AgreeBelow.body_eq (h : st.AgreeBelow st' (.node r)) : st'.body r = st.body r :=
  h r (reaches_refl st _)

theorem AgreeBelow.children_eq (h : st.AgreeBelow st' (.node r)) :
    st'.children r = st.children r := by
  rw [Store.children, h.body_eq, Store.children]

/-- Stores that agree below a value lead from it to the same places. -/
theorem AgreeBelow.at?_eq (h : st.AgreeBelow st' v) : st'.at? v q = st.at? v q := by
  induction q generalizing v with
  | nil => rfl
  | cons k q ih =>
      cases v with
      | scalar a => rfl
      | node r =>
          rw [at?, at?, h.body_eq]
          cases hchild : (st.body r).child? k with
          | none => rfl
          | some c => exact ih (h.child (Body.mem_children_of_child? hchild))

theorem AgreeBelow.kind_eq (h : st.AgreeBelow st' v) (hw : st.Reaches v w) :
    st'.kind w = st.kind w := by
  cases w with
  | scalar a => rfl
  | node r => rw [kind, kind, h r hw]

theorem AgreeBelow.property_eq {key : String} (h : st.AgreeBelow st' v) :
    st'.property v key = st.property v key := by
  cases v with
  | scalar a => rfl
  | node r => rw [property, h.body_eq, property]

/-- A write leaves alone what does not reach the node. -/
theorem agreeBelow_setBody (h : ¬ st.Reaches v (.node r)) :
    st.AgreeBelow (st.setBody r body) v :=
  fun _ hs => body_setBody_of_ne fun hsr => h (hsr ▸ hs)

theorem AgreeBelow.reaches_iff (h : st.AgreeBelow st' v) : st'.Reaches v w ↔ st.Reaches v w := by
  constructor
  · intro hw
    refine hw.inherit (P := st.Reaches v) (reaches_refl st v) fun r hr c hc => ?_
    rw [Store.children, h r hr] at hc
    exact hr.trans (reaches_of_mem_children hc)
  · intro hw
    induction hw with
    | refl => exact reaches_refl _ _
    | tail hvu hstep ih =>
        obtain ⟨r, rfl, hc⟩ := hstep
        refine ih.trans (reaches_of_mem_children ?_)
        rwa [Store.children, h r hvu]

theorem AgreeBelow.trans (h : st.AgreeBelow st' v) (h' : st'.AgreeBelow st'' v) :
    st.AgreeBelow st'' v :=
  fun r hr => (h' r (h.reaches_iff.mpr hr)).trans (h r hr)

/-! ### Extension -/

theorem extends_refl (st : Store) : st.Extends st := ⟨Nat.le_refl _, fun _ => rfl, fun _ => id⟩

theorem Extends.trans (h : st.Extends st') (h' : st'.Extends st'') : st.Extends st'' where
  size_le := Nat.le_trans h.size_le h'.size_le
  body_eq hr := by rw [h'.body_eq (Nat.lt_of_lt_of_le hr h.size_le), h.body_eq hr]
  frozen hr hfrozen := h'.frozen (Nat.lt_of_lt_of_le hr h.size_le) (h.frozen hr hfrozen)

theorem extends_alloc (st : Store) (body : Body) : st.Extends (st.alloc body).2 where
  size_le := by simp
  body_eq hr := body_alloc_of_ne (Nat.ne_of_lt hr)
  frozen hr hfrozen := by rwa [node_alloc_of_ne (Nat.ne_of_lt hr)]

/-- Nothing changes below a value that reaches no dangling reference. -/
theorem Extends.agreeBelow (h : st.Extends st')
    (hv : ∀ r, st.Reaches v (.node r) → r.index < st.size) : st.AgreeBelow st' v :=
  fun r hr => h.body_eq (hv r hr)

theorem Sound.agreeBelow (hsound : st.Sound roots) (h : st.Extends st') (hv : st.Within roots v) :
    st.AgreeBelow st' v :=
  h.agreeBelow fun r hr => hsound r (within_node_iff.mp (hv.reaches hr))

/-! ### Growth -/

theorem grown_refl (st : Store) (roots : List Value) : st.Grown roots st where
  toExtends := extends_refl st
  children hr _ hc := by
    rw [children_of_size_le hr] at hc
    simp at hc

theorem available_of_within (h : st.Within roots v) : st.Available roots st' v := .inl h

theorem available_scalar (a : Scalar) : st.Available roots st' (.scalar a) :=
  .inl (within_scalar a)

theorem Available.mono (h : st.Available roots st' v) (hsize : st'.size ≤ st''.size) :
    st.Available roots st'' v := by
  rcases h with h | ⟨s, rfl, hs, hlt⟩
  · exact .inl h
  · exact .inr ⟨s, rfl, hs, Nat.lt_of_lt_of_le hlt hsize⟩

theorem Available.widen (h : st.Available roots' st' v)
    (hroots : ∀ u ∈ roots', st.Within roots u) : st.Available roots st' v :=
  h.imp (fun hv => hv.trans hroots) id

theorem Grown.widen (h : st.Grown roots' st') (hroots : ∀ u ∈ roots', st.Within roots u) :
    st.Grown roots st' :=
  ⟨h.toExtends, fun hr _ hc => (h.children hr hc).widen hroots⟩

/-- A new node made of available values is available. -/
theorem Grown.alloc (h : st.Grown roots st')
    (hbody : ∀ c ∈ body.children, st.Available roots st' c) :
    st.Grown roots (st'.alloc body).2 ∧
      st.Available roots (st'.alloc body).2 (st'.alloc body).1 := by
  have hsize : st'.size ≤ (st'.alloc body).2.size := by simp
  constructor
  · refine ⟨h.toExtends.trans (extends_alloc st' body), fun {r} hr {c} hc => ?_⟩
    by_cases hnew : r.index = st'.size
    · have hr' : r = ⟨st'.size⟩ := Ref.eq_of_index_eq hnew
      rw [hr', children_alloc_self] at hc
      exact (hbody c hc).mono hsize
    · rw [Store.children, body_alloc_of_ne hnew] at hc
      exact (h.children hr hc).mono hsize
  · exact .inr ⟨⟨st'.size⟩, rfl, h.size_le, by simp⟩

theorem Grown.available_child (h : st.Grown roots st') (hsound : st.Sound roots)
    (hr : st.Available roots st' (.node r)) (hc : w ∈ st'.children r) :
    st.Available roots st' w := by
  rcases hr with hr | ⟨s, hrs, hs, hlt⟩
  · have hsize := hsound r (within_node_iff.mp hr)
    rw [Store.children, h.body_eq hsize] at hc
    exact .inl (hr.reaches (reaches_of_mem_children hc))
  · cases hrs
    exact h.children hs hc

theorem Grown.available_of_reaches (h : st.Grown roots st') (hsound : st.Sound roots)
    (hv : st.Available roots st' v) (hreach : st'.Reaches v w) : st.Available roots st' w :=
  hreach.inherit (P := st.Available roots st') hv fun _ hr _ hc =>
    h.available_child hsound hr hc

theorem Grown.index_lt (h : st.Grown roots st') (hsound : st.Sound roots)
    (hr : st.Available roots st' (.node r)) : r.index < st'.size := by
  rcases hr with hr | ⟨s, hrs, hs, hlt⟩
  · exact Nat.lt_of_lt_of_le (hsound r (within_node_iff.mp hr)) h.size_le
  · cases hrs
    exact hlt

theorem Grown.sound (h : st.Grown roots st') (hsound : st.Sound roots) {held : List Value}
    (hheld : ∀ v ∈ held, st.Available roots st' v) : st'.Sound held := by
  rintro r ⟨v, hv, hr⟩
  exact h.index_lt hsound (h.available_of_reaches hsound (hheld v hv) hr)

theorem Grown.agreeBelow (h : st.Grown roots st') (hsound : st.Sound roots)
    (hv : st.Available roots st' v) (hext : st'.Extends st'') : st'.AgreeBelow st'' v :=
  hext.agreeBelow fun _ hr => h.index_lt hsound (h.available_of_reaches hsound hv hr)

theorem Grown.setBody (h : st.Grown roots st') (hr : st.size ≤ r.index)
    (hbody : ∀ c ∈ body.children, st.Available roots st' c) :
    st.Grown roots (st'.setBody r body) where
  size_le := by simpa using h.size_le
  body_eq {s} hs := by
    have hne : s ≠ r := by
      rintro rfl
      exact Nat.not_lt_of_le hr hs
    rw [body_setBody_of_ne hne, h.body_eq hs]
  frozen hs hfrozen := by simpa using h.frozen hs hfrozen
  children {s} hs {c} hc := by
    have hc' : st.Available roots st' c := by
      by_cases hsr : s = r
      · subst hsr
        rw [children_setBody_self (by simpa using index_lt_of_mem_children hc)] at hc
        exact hbody c hc
      · rw [children_setBody_of_ne hsr] at hc
        exact h.children hs hc
    exact hc'.mono (by simp)

/-! ### Freezing -/

/-- Freezing changes no contents, and nothing that was frozen is thawed. -/
structure Frozen (st st' : Store) : Prop where
  size_eq : st'.size = st.size
  body_eq : ∀ r : Ref, st'.body r = st.body r
  frozen : ∀ r : Ref, (st.node r).frozen → (st'.node r).frozen

theorem Frozen.trans (h : st.Frozen st') (h' : st'.Frozen st'') : st.Frozen st'' where
  size_eq := h'.size_eq.trans h.size_eq
  body_eq r := (h'.body_eq r).trans (h.body_eq r)
  frozen r hr := h'.frozen r (h.frozen r hr)

theorem node_set_frozen (st : Store) (hr : r.index < st.nodes.size) (s : Ref) :
    (⟨st.nodes.set r.index { st.nodes[r.index] with frozen := true }⟩ : Store).node s =
      if r.index = s.index then { st.node s with frozen := true } else st.node s := by
  simp only [node, Array.getD_eq_getD_getElem?, Array.getElem?_set]
  by_cases hs : r.index = s.index
  · rw [if_pos hs, if_pos hs, ← hs, Array.getElem?_eq_getElem hr]
    rfl
  · rw [if_neg hs, if_neg hs]

theorem frozen_set (st : Store) (hr : r.index < st.nodes.size) :
    st.Frozen ⟨st.nodes.set r.index { st.nodes[r.index] with frozen := true }⟩ := by
  refine ⟨Array.size_set hr, fun s => ?_, fun s hs => ?_⟩
  · rw [body, node_set_frozen st hr, body]
    split <;> rfl
  · rw [node_set_frozen st hr]
    split
    · rfl
    · exact hs

theorem frozen_freezeAll (st : Store) (work : List Value) : st.Frozen (st.freezeAll work) := by
  fun_induction st.freezeAll work with
  | case1 st => exact ⟨rfl, fun _ => rfl, fun _ => id⟩
  | case2 st a work ih => exact ih
  | case3 st r work hr hfrozen ih => exact ih
  | case4 st r work hr hfrozen ih => exact (frozen_set st hr).trans ih
  | case5 st r work hr ih => exact ih

theorem frozen_deepFreeze (st : Store) (v : Value) : st.Frozen (st.deepFreeze v) :=
  frozen_freezeAll st [v]

theorem Frozen.agreeBelow (h : st.Frozen st') : st.AgreeBelow st' v := fun r _ => h.body_eq r

theorem Frozen.sound (h : st.Frozen st') (hsound : st.Sound roots) : st'.Sound roots := by
  rintro r ⟨v, hv, hr⟩
  rw [h.size_eq]
  exact hsound r ⟨v, hv, h.agreeBelow.reaches_iff.mp hr⟩

theorem Grown.freeze (h : st.Grown roots st') (hfrozen : st'.Frozen st'') :
    st.Grown roots st'' where
  size_le := hfrozen.size_eq ▸ h.size_le
  body_eq hr := (hfrozen.body_eq _).trans (h.body_eq hr)
  frozen hr hf := hfrozen.frozen _ (h.frozen hr hf)
  children hr _ hc := by
    rw [Store.children, hfrozen.body_eq] at hc
    exact (h.children hr hc).mono hfrozen.size_eq.ge

end Store

end PathCopy
