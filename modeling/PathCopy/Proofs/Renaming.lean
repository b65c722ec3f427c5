import PathCopy.Proofs.Likeness

/-!
Renaming. A renaming of references acts on values, on tables and on the contents of nodes. It keeps
the sort of a value and the keys of its children, so what a key leads to is the renamed child.
-/

namespace PathCopy

/-! ### Values and contents under a renaming -/

def Value.rename (φ : Ref → Ref) : Value → Value
  | .scalar a => .scalar a
  | .node r => .node (φ r)

@[simp] theorem Value.rename_scalar (φ : Ref → Ref) (a : Scalar) :
    (Value.scalar a).rename φ = .scalar a := rfl

@[simp] theorem Value.rename_node (φ : Ref → Ref) (r : Ref) :
    (Value.node r).rename φ = .node (φ r) := rfl

@[simp] theorem Value.rename_id (v : Value) : v.rename id = v := by
  cases v <;> rfl

namespace Table

variable {α β : Type} (f : α → β) (t : Table α) (k : String) (a : α)

def map : Table β where
  entries := t.entries.map fun e => (e.1, f e.2)
  nodup := by
    have hkeys : (t.entries.map fun e => (e.1, f e.2)).map Prod.fst = t.entries.map Prod.fst := by
      simp [Function.comp_def]
    rw [hkeys]
    exact t.nodup

variable {t} in
theorem eq_of_entries {u : Table α} (h : t.entries = u.entries) : t = u := by
  cases t
  cases u
  cases h
  rfl

@[simp] theorem entries_map : (t.map f).entries = t.entries.map fun e => (e.1, f e.2) := rfl

@[simp] theorem values_map : (t.map f).values = t.values.map f := by
  simp [values, Function.comp_def]

@[simp] theorem get?_map : (t.map f).get? k = (t.get? k).map f := by
  have hfind : ∀ es : List (String × α),
      findEntry k (es.map fun e => (e.1, f e.2)) = (findEntry k es).map f := by
    intro es
    induction es with
    | nil => rfl
    | cons e es ih =>
        rw [List.map_cons, findEntry, findEntry, ih]
        split <;> rfl
  exact hfind t.entries

@[simp] theorem contains_map : (t.map f).contains k = t.contains k := by
  simp [contains]

theorem insert_map : (t.map f).insert k (f a) = (t.insert k a).map f := by
  have hput : ∀ es : List (String × α), putEntry k (f a) (es.map fun e => (e.1, f e.2)) =
      (putEntry k a es).map fun e => (e.1, f e.2) := by
    intro es
    induction es with
    | nil => rfl
    | cons e es ih =>
        rw [List.map_cons, putEntry, putEntry, ih]
        split <;> rfl
  exact eq_of_entries (hput t.entries)

theorem erase_map : (t.map f).erase k = (t.erase k).map f :=
  eq_of_entries List.filter_map

end Table

namespace Body

def rename (φ : Ref → Ref) : Body → Body
  | date ms => date ms
  | list items => list (items.map (Value.rename φ))
  | map entries => map (entries.map (Value.rename φ))
  | record cls fields => record cls (fields.map (Value.rename φ))

variable (φ ψ : Ref → Ref) (b : Body) (k : String)

@[simp] theorem children_rename : (b.rename φ).children = b.children.map (Value.rename φ) := by
  cases b with
  | date ms => rfl
  | list items => rfl
  | map entries => exact Table.values_map _ _
  | record cls fields => exact Table.values_map _ _

@[simp] theorem child?_rename : (b.rename φ).child? k = (b.child? k).map (Value.rename φ) := by
  cases b with
  | date ms => rfl
  | map entries => exact Table.get?_map _ _ _
  | record cls fields => exact Table.get?_map _ _ _
  | list items =>
      rw [rename, child?, child?]
      cases Number.readIndex? k with
      | none => rfl
      | some i => exact List.getElem?_map

theorem match_rename {R : Value → Value → Prop} {φ : Ref → Ref} {b : Body}
    (h : ∀ c ∈ b.children, R c (c.rename φ)) : b.Match R (b.rename φ) := by
  have hlist : ∀ vs : List Value, (∀ c ∈ vs, R c (c.rename φ)) →
      List.Forall₂ R vs (vs.map (Value.rename φ)) := by
    intro vs hvs
    rw [List.forall₂_map_right_iff, List.forall₂_same]
    exact hvs
  have htable : ∀ t : Table Value, (∀ c ∈ t.values, R c (c.rename φ)) →
      t.Match R (t.map (Value.rename φ)) := by
    intro t ht
    rw [Table.Match, Table.entries_map, List.forall₂_map_right_iff, List.forall₂_same]
    exact fun e he => ⟨rfl, ht e.2 (List.mem_map_of_mem he)⟩
  cases b with
  | date ms => exact .date ms
  | list items => exact .list (hlist items h)
  | map entries => exact .map (htable entries h)
  | record cls fields => exact .record cls (htable fields h)

theorem rename_congr {b : Body} {φ ψ : Ref → Ref}
    (h : ∀ c ∈ b.children, c.rename φ = c.rename ψ) : b.rename φ = b.rename ψ := by
  have htable : ∀ t : Table Value, (∀ c ∈ t.values, c.rename φ = c.rename ψ) →
      t.map (Value.rename φ) = t.map (Value.rename ψ) := by
    intro t ht
    refine Table.eq_of_entries (List.map_congr_left fun e he => ?_)
    rw [ht e.2 (List.mem_map_of_mem he)]
  cases b with
  | date ms => rfl
  | list items => exact congrArg list (List.map_congr_left h)
  | map entries => exact congrArg map (htable entries h)
  | record cls fields => exact congrArg (record cls) (htable fields h)

theorem rename_eq_self {b : Body} {φ : Ref → Ref} (h : ∀ c ∈ b.children, c.rename φ = c) :
    b.rename φ = b := by
  have hid : Value.rename id = id := funext Value.rename_id
  have htable : ∀ t : Table Value, t.map (Value.rename id) = t := fun t =>
    Table.eq_of_entries (by simp [hid])
  rw [rename_congr (ψ := id) fun c hc => (h c hc).trans (congrFun hid c).symm]
  cases b with
  | date ms => rfl
  | list items => simp [rename, hid]
  | map entries => exact congrArg map (htable entries)
  | record cls fields => exact congrArg (record cls) (htable fields)

end Body

end PathCopy
