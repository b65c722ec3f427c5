import Mathlib.Logic.Relation
import PathCopy.Value.Basic

/-!
Reachability. A value reaches itself and, if it is a node, whatever its children reach. The lemmas
say what an operation on the store does to this relation: a new node adds nothing below the old
ones, and a write to a node is invisible to every value that does not reach the node.
-/

namespace PathCopy

/-- A scalar, or a reference to one of the first `n` nodes. -/
def Value.Below (n : Nat) : Value → Prop
  | .scalar _ => True
  | .node r => r.index < n

instance (n : Nat) (v : Value) : Decidable (v.Below n) :=
  match v with
  | .scalar _ => inferInstanceAs (Decidable True)
  | .node r => inferInstanceAs (Decidable (r.index < n))

theorem Ref.eq_of_index_eq {r s : Ref} (h : r.index = s.index) : r = s := by
  cases r
  cases s
  exact congrArg Ref.mk h

namespace Store

/-- Every node is made of earlier ones. -/
def Layered (st : Store) : Prop := ∀ i, i < st.size → ∀ v ∈ st.children ⟨i⟩, v.Below i

instance (st : Store) : Decidable st.Layered :=
  inferInstanceAs (Decidable (∀ i, i < st.size → ∀ v ∈ st.children ⟨i⟩, v.Below i))

/-- The node behind `v` holds `w` directly. -/
def Child (st : Store) (v w : Value) : Prop := ∃ r, v = .node r ∧ w ∈ st.children r

/-- `w` is `v` itself or lies somewhere inside it. -/
def Reaches (st : Store) : Value → Value → Prop := Relation.ReflTransGen st.Child

def Reachable (st : Store) (roots : List Value) (r : Ref) : Prop :=
  ∃ v ∈ roots, st.Reaches v (.node r)

/-- A value that somebody who holds the roots can have: a scalar, or something inside a root. -/
def Within (st : Store) (roots : List Value) (v : Value) : Prop :=
  (∃ s, v = .scalar s) ∨ ∃ u ∈ roots, st.Reaches u v

/-- No reference that the roots reach dangles. -/
def Sound (st : Store) (roots : List Value) : Prop :=
  ∀ r, st.Reachable roots r → r.index < st.size

variable {st : Store} {u v w : Value} {r s t : Ref} {body : Body} {roots roots' : List Value}

/-! ### The relation itself -/

theorem child_node : st.Child (.node r) w ↔ w ∈ st.children r := by
  constructor
  · rintro ⟨s, hs, hw⟩
    cases hs
    exact hw
  · intro hw
    exact ⟨r, rfl, hw⟩

theorem reaches_refl (st : Store) (v : Value) : st.Reaches v v := .refl

theorem Reaches.trans (h : st.Reaches u v) (h' : st.Reaches v w) : st.Reaches u w :=
  Relation.ReflTransGen.trans h h'

theorem reaches_of_mem_children (h : w ∈ st.children r) : st.Reaches (.node r) w :=
  .single (child_node.mpr h)

theorem reaches_scalar {a : Scalar} (h : st.Reaches (.scalar a) w) : w = .scalar a := by
  rcases Relation.ReflTransGen.cases_head h with h | ⟨x, ⟨r, hr, -⟩, -⟩
  · exact h.symm
  · simp at hr

theorem reaches_node_iff :
    st.Reaches (.node r) w ↔ w = .node r ∨ ∃ c ∈ st.children r, st.Reaches c w := by
  constructor
  · intro h
    rcases Relation.ReflTransGen.cases_head h with h | ⟨c, hc, hcw⟩
    · exact .inl h.symm
    · exact .inr ⟨c, child_node.mp hc, hcw⟩
  · rintro (rfl | ⟨c, hc, hcw⟩)
    · exact reaches_refl st _
    · exact (reaches_of_mem_children hc).trans hcw

/-- Seen from its end, a way to a node is empty or comes through a node that holds it. -/
theorem reaches_to_node (h : st.Reaches v (.node r)) :
    v = .node r ∨ ∃ s, st.Reaches v (.node s) ∧ .node r ∈ st.children s := by
  rcases Relation.ReflTransGen.cases_tail h with h | ⟨x, hvx, s, rfl, hs⟩
  · exact .inl h.symm
  · exact .inr ⟨s, hvx, hs⟩

/-- A property of the start that every child inherits holds of whatever is reached. -/
theorem Reaches.inherit {P : Value → Prop} (h : st.Reaches v w) (hv : P v)
    (hchild : ∀ r, P (.node r) → ∀ c ∈ st.children r, P c) : P w := by
  induction h with
  | refl => exact hv
  | tail _ hstep ih =>
      obtain ⟨r, rfl, hc⟩ := hstep
      exact hchild r ih _ hc

theorem Reachable.mono (h : st.Reachable roots r) (hsub : roots ⊆ roots') :
    st.Reachable roots' r := by
  obtain ⟨v, hv, hr⟩ := h
  exact ⟨v, hsub hv, hr⟩

theorem reachable_of_mem (h : .node r ∈ roots) : st.Reachable roots r :=
  ⟨_, h, reaches_refl st _⟩

theorem Reachable.child (h : st.Reachable roots r) (hs : .node s ∈ st.children r) :
    st.Reachable roots s := by
  obtain ⟨v, hv, hr⟩ := h
  exact ⟨v, hv, hr.trans (reaches_of_mem_children hs)⟩

theorem within_of_mem (h : v ∈ roots) : st.Within roots v := .inr ⟨v, h, reaches_refl st v⟩

theorem within_scalar (a : Scalar) : st.Within roots (.scalar a) := .inl ⟨a, rfl⟩

theorem Within.reaches (h : st.Within roots v) (hw : st.Reaches v w) : st.Within roots w := by
  rcases h with ⟨a, rfl⟩ | ⟨u, hu, huv⟩
  · exact .inl ⟨a, reaches_scalar hw⟩
  · exact .inr ⟨u, hu, huv.trans hw⟩

theorem within_node_iff : st.Within roots (.node r) ↔ st.Reachable roots r := by
  constructor
  · rintro (⟨a, ha⟩ | h)
    · simp at ha
    · exact h
  · exact .inr

theorem Within.trans (h : st.Within roots' v) (hroots : ∀ u ∈ roots', st.Within roots u) :
    st.Within roots v := by
  rcases h with ⟨a, rfl⟩ | ⟨u, hu, huv⟩
  · exact within_scalar a
  · exact (hroots u hu).reaches huv

theorem Reachable.within (h : st.Reachable roots' r) (hroots : ∀ u ∈ roots', st.Within roots u) :
    st.Reachable roots r :=
  within_node_iff.mp ((within_node_iff.mpr h).trans hroots)

theorem sound_nil (st : Store) : st.Sound [] := by
  rintro r ⟨v, hv, -⟩
  simp at hv

theorem Sound.mono (h : st.Sound roots) (hroots : ∀ u ∈ roots', st.Within roots u) :
    st.Sound roots' :=
  fun r hr => h r (hr.within hroots)

theorem children_of_size_le (h : st.size ≤ r.index) : st.children r = [] := by
  rw [children, body, node_of_size_le st r h]
  rfl

theorem index_lt_of_mem_children (h : w ∈ st.children r) : r.index < st.size := by
  rcases Nat.lt_or_ge r.index st.size with hlt | hge
  · exact hlt
  · rw [children_of_size_le hge] at h
    simp at h

/-! ### Stores in layers -/

theorem Layered.sound (h : st.Layered) (hroots : ∀ v ∈ roots, v.Below st.size) :
    st.Sound roots := by
  have hall : ∀ v ∈ roots, ∀ w, st.Reaches v w → w.Below st.size := by
    intro v hv w hw
    refine hw.inherit (P := Value.Below st.size) (hroots v hv) fun r hr c hc => ?_
    have hc' := h r.index hr c hc
    cases c with
    | scalar a => trivial
    | node s => exact Nat.lt_trans hc' hr
  rintro r ⟨v, hv, hr⟩
  exact hall v hv _ hr

/-! ### Writes -/

theorem node_setBody_of_ne (h : s ≠ r) : (st.setBody r body).node s = st.node s := by
  have hindex : r.index ≠ s.index := fun he => h (Ref.eq_of_index_eq he).symm
  simp only [node, setBody, Array.getD_eq_getD_getElem?, Array.getElem?_modify, if_neg hindex]

theorem body_setBody_of_ne (h : s ≠ r) : (st.setBody r body).body s = st.body s := by
  rw [Store.body, node_setBody_of_ne h, Store.body]

theorem children_setBody_of_ne (h : s ≠ r) : (st.setBody r body).children s = st.children s := by
  rw [children, body_setBody_of_ne h, children]

theorem body_setBody_self (h : r.index < st.size) : (st.setBody r body).body r = body := by
  rw [Store.body, node_setBody st r r body h, if_pos rfl]

theorem children_setBody_self (h : r.index < st.size) :
    (st.setBody r body).children r = body.children := by
  rw [children, body_setBody_self h]

@[simp] theorem frozen_setBody (st : Store) (r s : Ref) (body : Body) :
    ((st.setBody r body).node s).frozen = (st.node s).frozen := by
  by_cases h : s = r
  · subst h
    by_cases hlt : s.index < st.size
    · rw [node_setBody st s s body hlt, if_pos rfl]
    · rw [node_of_size_le _ _ (by simpa using hlt), node_of_size_le _ _ (by omega)]
  · rw [node_setBody_of_ne h]

/-- A way to the written node leads there after the write as well. -/
theorem Reaches.setBody_target (h : st.Reaches v (.node t)) (body : Body) :
    (st.setBody t body).Reaches v (.node t) := by
  induction h using Relation.ReflTransGen.head_induction_on with
  | refl => exact reaches_refl _ _
  | head hstep _ ih =>
      obtain ⟨r, rfl, hc⟩ := hstep
      by_cases hr : r = t
      · subst hr
        exact reaches_refl _ _
      · exact (reaches_of_mem_children (by rwa [children_setBody_of_ne hr])).trans ih

/-- A write of values from within the roots brings nothing new within reach. -/
theorem within_of_setBody (hbody : ∀ c ∈ body.children, st.Within roots c)
    (h : (st.setBody t body).Within roots w) : st.Within roots w := by
  rcases h with ⟨a, rfl⟩ | ⟨u, hu, huw⟩
  · exact within_scalar a
  · refine huw.inherit (P := st.Within roots) (within_of_mem hu) fun r hr c hc => ?_
    by_cases hrt : r = t
    · subst hrt
      rw [children_setBody_self (by simpa using index_lt_of_mem_children hc)] at hc
      exact hbody c hc
    · rw [children_setBody_of_ne hrt] at hc
      exact hr.reaches (reaches_of_mem_children hc)

/-! ### New nodes -/

theorem node_alloc_of_ne (h : r.index ≠ st.size) : (st.alloc body).2.node r = st.node r := by
  rw [node_alloc, if_neg h]

theorem body_alloc_of_ne (h : r.index ≠ st.size) : (st.alloc body).2.body r = st.body r := by
  rw [Store.body, node_alloc_of_ne h, Store.body]

theorem body_alloc_self (st : Store) (body : Body) :
    (st.alloc body).2.body ⟨st.size⟩ = body := by
  rw [Store.body, node_alloc, if_pos rfl]

@[simp] theorem fst_alloc (st : Store) (body : Body) : (st.alloc body).1 = .node ⟨st.size⟩ := rfl

theorem children_alloc_self (st : Store) (body : Body) :
    (st.alloc body).2.children ⟨st.size⟩ = body.children := by
  rw [children, body_alloc_self]

/-- A new node that is made of values within the roots brings only itself within reach. -/
theorem within_of_alloc (hsound : st.Sound roots) (hbody : ∀ c ∈ body.children, st.Within roots c)
    (h : (st.alloc body).2.Within ((st.alloc body).1 :: roots) w) :
    w = .node ⟨st.size⟩ ∨ st.Within roots w := by
  rcases h with ⟨a, rfl⟩ | ⟨u, hu, huw⟩
  · exact .inr (within_scalar a)
  · refine huw.inherit (P := fun w => w = .node ⟨st.size⟩ ∨ st.Within roots w) ?_
      fun r hr c hc => ?_
    · rcases List.mem_cons.mp hu with rfl | hu
      · exact .inl rfl
      · exact .inr (within_of_mem hu)
    · rcases hr with hr | hr
      · cases hr
        rw [children_alloc_self] at hc
        exact .inr (hbody c hc)
      · have hne : r.index ≠ st.size := Nat.ne_of_lt (hsound r (within_node_iff.mp hr))
        rw [children, body_alloc_of_ne hne, ← children] at hc
        exact .inr (hr.reaches (reaches_of_mem_children hc))

end Store

end PathCopy
