import PathCopy.Value.Basic

/-!
Equality of values. Two references to one node are equal at once; otherwise nodes are compared by
their contents, maps and records without regard to order, and records by the names of their classes.
-/

namespace PathCopy

namespace Scalar

/-- Equality of scalars; a NaN differs from itself and the two zeros are equal. -/
def equal : Scalar → Scalar → Bool
  | undefined, undefined => true
  | null, null => true
  | bool a, bool b => a == b
  | number x, number y => x == y
  | text s, text t => s == t
  | _, _ => false

end Scalar

/-- Whether two lists have the same length and agree place by place. -/
def listsAgree {α : Type} (agree : α → α → Bool) : List α → List α → Bool
  | [], [] => true
  | a :: as, b :: bs => agree a b && listsAgree agree as bs
  | _, _ => false

/-- Whether two tables have the same keys and agree on each. -/
def tablesAgree {α : Type} (agree : α → α → Bool) (t u : Table α) : Bool :=
  t.size == u.size && t.entries.all fun (key, a) =>
    match u.get? key with
    | some b => agree a b
    | none => false

/-- Whether two nodes agree, where `agree` compares their children. -/
def Body.agree (agree : Value → Value → Bool) : Body → Body → Bool
  | date m, date n => m == n
  | list items, list others => listsAgree agree items others
  | map t, map u => tablesAgree agree t u
  | record c t, record d u => c.map (·.name) == d.map (·.name) && tablesAgree agree t u
  | _, _ => false

/-! ### What a comparison depends on -/

theorem listsAgree_congr {α : Type} {f g : α → α → Bool} {as bs : List α}
    (h : ∀ a ∈ as, ∀ b, f a b = g a b) : listsAgree f as bs = listsAgree g as bs := by
  induction as generalizing bs with
  | nil => cases bs <;> rfl
  | cons a as ih =>
    obtain ⟨ha, has⟩ := List.forall_mem_cons.1 h
    cases bs with
    | nil => rfl
    | cons b bs => rw [listsAgree, listsAgree, ha, ih has]

theorem tablesAgree_congr {α : Type} {f g : α → α → Bool} {t u : Table α}
    (h : ∀ a ∈ t.values, ∀ b, f a b = g a b) : tablesAgree f t u = tablesAgree g t u := by
  have hentry : ∀ e ∈ t.entries, ∀ b, f e.2 b = g e.2 b := fun e he b =>
    h e.2 (List.mem_map_of_mem he) b
  unfold tablesAgree
  rw [Bool.eq_iff_iff, Bool.and_eq_true, Bool.and_eq_true, List.all_eq_true, List.all_eq_true]
  refine and_congr_right fun _ => forall_congr' fun e => forall_congr' fun he => ?_
  cases hget : u.get? e.1 with
  | none => simp only [hget]
  | some b => simp only [hget, hentry e he b]

/-- A comparison of two nodes compares only children of the first one. -/
theorem Body.agree_congr {f g : Value → Value → Bool} {body body' : Body}
    (h : ∀ c ∈ body.children, ∀ d, f c d = g c d) : body.agree f body' = body.agree g body' := by
  cases body <;> cases body' <;> try rfl
  case list.list items others => exact listsAgree_congr h
  case map.map t u => exact tablesAgree_congr h
  case record.record c t d u => rw [agree, agree, tablesAgree_congr h]

namespace Store

def equalTo (st : Store) : Nat → Value → Value → Bool
  | _, .scalar a, .scalar b => a.equal b
  | 0, .node r, .node s => r == s
  | depth + 1, .node r, .node s =>
    r == s || Body.agree (st.equalTo depth) (st.body r) (st.body s)
  | _, _, _ => false

/-- Equality of values. A chain of nodes is never longer than the store. -/
def equal (st : Store) (v w : Value) : Bool := st.equalTo st.size v w

end Store

/-- Whether two values are the same node, or equal scalars. -/
def Value.same : Value → Value → Bool
  | .scalar a, .scalar b => a.equal b
  | .node r, .node s => r == s
  | _, _ => false

end PathCopy
