import Mathlib.Data.List.Basic
import PathCopy.Path.KeyTree

/-!
The tree of a list of paths holds these paths and no others. It is regular: under each key of a node
stands one branch, and every branch leads to the end of a path.
-/

namespace PathCopy

/-! ### The paths of a tree -/

namespace KeyBranches

def find? (k : String) : KeyBranches → Option KeyTree
  | .nil => none
  | .cons key tree rest => if key = k then some tree else rest.find? k

def under (branches : KeyBranches) (k : String) : KeyTree := (branches.find? k).getD .empty

end KeyBranches

namespace KeyTree

def under (t : KeyTree) (k : String) : KeyTree := t.branches.under k

/-- The tree has a path with these keys and this effect. -/
def Holds : KeyTree → List String → Effect → Prop
  | t, [], e => e ∈ t.ends
  | t, k :: keys, e => (t.under k).Holds keys e

/-- A path of the tree goes on behind a position. -/
def Passes (t : KeyTree) (q : List String) : Prop := ∃ k keys e, t.Holds (q ++ k :: keys) e

/-- Every path of the tree that comes to a position deletes a map entry there, and one does. -/
def Removes (t : KeyTree) (q : List String) : Prop :=
  t.Holds q .mapDelete ∧ ∀ keys e, t.Holds (q ++ keys) e → keys = [] ∧ e = .mapDelete

variable {t : KeyTree} {k : String} {q keys : List String} {e effect : Effect}

theorem passes_cons : t.Passes (k :: q) ↔ (t.under k).Passes q := Iff.rfl

theorem removes_cons : t.Removes (k :: q) ↔ (t.under k).Removes q := Iff.rfl

theorem not_holds_empty : ¬ empty.Holds q e := by
  induction q with
  | nil => exact nofun
  | cons k q ih => exact ih

theorem isLeaf_node {ends : List Effect} {branches : KeyBranches} (h : branches ≠ .nil) :
    (node ends branches).isLeaf = false := by
  cases branches with
  | nil => contradiction
  | cons key tree rest => rfl

theorem under_leaf (h : t.isLeaf) (k : String) : t.under k = empty := by
  obtain ⟨ends, branches⟩ := t
  cases branches with
  | nil => rfl
  | cons key tree rest => cases h

theorem not_holds_leaf (h : t.isLeaf) : ¬ t.Holds (k :: q) e := by
  rw [Holds, under_leaf h]
  exact not_holds_empty

theorem not_passes_leaf (h : t.isLeaf) : ¬ t.Passes q := by
  rintro ⟨k, keys, e, hholds⟩
  cases q with
  | nil => exact not_holds_leaf h hholds
  | cons l q => exact not_holds_leaf h hholds

theorem Removes.not_passes (h : t.Removes q) : ¬ t.Passes q := by
  rintro ⟨k, keys, e, hholds⟩
  exact List.cons_ne_nil k keys (h.2 (k :: keys) e hholds).1

end KeyTree

/-! ### Insertion -/

theorem KeyBranches.find?_insert (branches : KeyBranches) (effect : Effect) (key : String)
    (keys : List String) (k : String) :
    (branches.insert effect key keys).find? k =
      if k = key then
        some (match branches.find? key with
          | some t => t.insert effect keys
          | none => .single effect keys)
      else branches.find? k := by
  match branches with
  | .nil =>
      rw [insert, find?]
      simp only [find?, eq_comm]
  | .cons k' t rest =>
      have hrest := find?_insert rest effect key keys k
      rw [insert]
      by_cases hkey : k' = key
      · subst hkey
        rw [if_pos rfl, find?, find?, if_pos rfl]
        simp only [find?, eq_comm]
        split <;> rfl
      · rw [if_neg hkey, find?, hrest]
        by_cases hk : k' = k
        · subst hk
          rw [if_pos rfl, if_neg hkey, find?, if_pos rfl]
        · rw [if_neg hk, find?, if_neg hkey, find?, if_neg hk]

namespace KeyTree

variable {t : KeyTree} {k : String} {q keys : List String} {e effect : Effect}

theorem holds_single : (single effect keys).Holds q e ↔ q = keys ∧ e = effect := by
  induction keys generalizing q with
  | nil =>
      cases q with
      | nil => simp [single, Holds, ends]
      | cons k q => simpa [single] using not_holds_leaf (t := node [effect] .nil) rfl
  | cons key keys ih =>
      cases q with
      | nil => simp [single, Holds, ends]
      | cons k q =>
          rw [Holds, under, single, branches, KeyBranches.under, KeyBranches.find?]
          by_cases hk : key = k
          · subst hk
            simpa using ih
          · simpa [hk, Ne.symm hk, KeyBranches.find?] using not_holds_empty (q := q)

theorem holds_insert : (t.insert effect keys).Holds q e ↔ t.Holds q e ∨ q = keys ∧ e = effect := by
  induction keys generalizing t q with
  | nil =>
      obtain ⟨ends, branches⟩ := t
      cases q with
      | nil => simp [insert, Holds, KeyTree.ends]
      | cons k q => simp [insert, Holds, under, KeyTree.branches]
  | cons key keys ih =>
      obtain ⟨ends, branches⟩ := t
      cases q with
      | nil => simp [insert, Holds, KeyTree.ends]
      | cons k q =>
          simp only [insert, Holds, under, KeyTree.branches, KeyBranches.under,
            KeyBranches.find?_insert, List.cons.injEq]
          by_cases hk : k = key
          · subst hk
            rw [if_pos rfl, Option.getD_some]
            cases branches.find? k with
            | none => simpa [not_holds_empty] using holds_single
            | some s => simpa using ih
          · simp [hk]

theorem holds_ofPaths {paths : List KeyPath} :
    (ofPaths paths).Holds q e ↔ ⟨q, e⟩ ∈ paths := by
  have hfold : ∀ (paths : List KeyPath) (t : KeyTree),
      (paths.foldl (fun t p => t.insert p.effect p.keys) t).Holds q e ↔
        t.Holds q e ∨ ⟨q, e⟩ ∈ paths := by
    intro paths
    induction paths with
    | nil => simp
    | cons p paths ih =>
        intro t
        rw [List.foldl_cons, ih, holds_insert, List.mem_cons, or_assoc, KeyPath.mk.injEq]
  simpa [ofPaths, not_holds_empty] using hfold paths empty

end KeyTree

/-! ### Regular trees -/

mutual

/-- Each key has one branch, and every branch leads to the end of a path. -/
def KeyTree.Regular : KeyTree → Prop
  | .node _ branches => branches.Regular

def KeyBranches.Regular : KeyBranches → Prop
  | .nil => True
  | .cons key tree rest =>
    rest.find? key = none ∧ (tree.isLeaf → tree.ends ≠ []) ∧ tree.Regular ∧ rest.Regular

end

theorem KeyBranches.Regular.find? {branches : KeyBranches} {k : String} {t : KeyTree}
    (h : branches.Regular) (hk : branches.find? k = some t) :
    t.Regular ∧ (t.isLeaf → t.ends ≠ []) := by
  match branches, h with
  | .nil, _ => cases hk
  | .cons key tree rest, h =>
      rw [KeyBranches.find?] at hk
      split at hk
      · cases hk
        exact ⟨h.2.2.1, h.2.1⟩
      · exact Regular.find? h.2.2.2 hk

namespace KeyTree

variable {t : KeyTree} {k : String} {q keys : List String} {e effect : Effect}

theorem regular_empty : empty.Regular := trivial

theorem Regular.under (h : t.Regular) (k : String) : (t.under k).Regular := by
  obtain ⟨ends, branches⟩ := t
  rw [KeyTree.under, KeyTree.branches, KeyBranches.under]
  cases hfind : branches.find? k with
  | none => exact regular_empty
  | some s => exact (KeyBranches.Regular.find? h hfind).1

theorem regular_single (effect : Effect) (keys : List String) :
    (single effect keys).Regular ∧ ((single effect keys).isLeaf → (single effect keys).ends ≠ []) := by
  induction keys with
  | nil => exact ⟨trivial, fun _ => List.cons_ne_nil _ _⟩
  | cons key keys ih => exact ⟨⟨rfl, ih.2, ih.1, trivial⟩, nofun⟩

theorem isLeaf_insert (effect : Effect) {keys : List String} (hkeys : keys ≠ []) (t : KeyTree) :
    (t.insert effect keys).isLeaf = false := by
  obtain ⟨ends, branches⟩ := t
  cases keys with
  | nil => contradiction
  | cons key keys =>
      rw [insert]
      cases branches with
      | nil => rfl
      | cons k tree rest =>
          rw [KeyBranches.insert]
          split <;> rfl

theorem ends_insert (h : (t.insert effect keys).isLeaf) : (t.insert effect keys).ends ≠ [] := by
  cases keys with
  | nil =>
      obtain ⟨ends, branches⟩ := t
      simp [insert, KeyTree.ends]
  | cons key keys =>
      rw [isLeaf_insert effect (List.cons_ne_nil key keys) t] at h
      cases h

theorem regular_insert (effect : Effect) :
    (∀ (keys : List String) (t : KeyTree), t.Regular → (t.insert effect keys).Regular) ∧
    ∀ (key : String) (keys : List String) (branches : KeyBranches), branches.Regular →
      (branches.insert effect key keys).Regular := by
  apply KeyTree.insert.mutual_induct
  · intro ends branches h
    exact h
  · intro key keys ends branches ih h
    exact ih h
  · intro key keys _
    exact ⟨rfl, (regular_single effect keys).2, (regular_single effect keys).1, trivial⟩
  · intro keys key tree rest ih h
    rw [KeyBranches.insert, if_pos rfl]
    exact ⟨h.1, ends_insert, ih h.2.2.1, h.2.2.2⟩
  · intro key keys key' tree rest hne ih h
    rw [KeyBranches.insert, if_neg hne]
    refine ⟨?_, h.2.1, h.2.2.1, ih h.2.2.2⟩
    rw [KeyBranches.find?_insert, if_neg hne, h.1]

theorem regular_ofPaths (paths : List KeyPath) : (ofPaths paths).Regular := by
  have hfold : ∀ (paths : List KeyPath) (t : KeyTree), t.Regular →
      (paths.foldl (fun t p => t.insert p.effect p.keys) t).Regular := by
    intro paths
    induction paths with
    | nil => exact fun t => id
    | cons p paths ih => exact fun t ht => ih _ ((regular_insert p.effect).1 p.keys t ht)
  exact hfold paths empty regular_empty

theorem holds_head {tree : KeyTree} {ends : List Effect} {rest : KeyBranches} :
    (node ends (.cons k tree rest)).Holds (k :: q) e ↔ tree.Holds q e := by
  rw [Holds, KeyTree.under, KeyTree.branches, KeyBranches.under, KeyBranches.find?, if_pos rfl,
    Option.getD_some]

/-- A regular tree has a path, unless it is the empty one. -/
theorem exists_holds : ∀ t : KeyTree, t.Regular → (t.isLeaf → t.ends ≠ []) →
    ∃ keys e, t.Holds keys e
  | .node (e :: _) _, _, _ => ⟨[], e, List.mem_cons_self⟩
  | .node [] .nil, _, hne => absurd rfl (hne rfl)
  | .node [] (.cons key tree _), h, _ => by
      obtain ⟨keys, e, hholds⟩ := exists_holds tree h.2.2.1 h.2.1
      exact ⟨key :: keys, e, holds_head.mpr hholds⟩

theorem Regular.passes_nil (h : t.Regular) (hleaf : t.isLeaf = false) : t.Passes [] := by
  obtain ⟨ends, branches⟩ := t
  cases branches with
  | nil => cases hleaf
  | cons key tree rest =>
      obtain ⟨keys, e, hholds⟩ := exists_holds tree h.2.2.1 h.2.1
      exact ⟨key, keys, e, holds_head.mpr hholds⟩

theorem Regular.removes_nil_iff (h : t.Regular) :
    t.Removes [] ↔ t.isLeaf ∧ t.ends ≠ [] ∧ ∀ e ∈ t.ends, e = .mapDelete := by
  constructor
  · intro hremoves
    refine ⟨?_, List.ne_nil_of_mem hremoves.1, fun e he => (hremoves.2 [] e he).2⟩
    by_contra hleaf
    exact hremoves.not_passes (h.passes_nil (eq_false_of_ne_true hleaf))
  · rintro ⟨hleaf, hne, hall⟩
    obtain ⟨e, he⟩ := List.exists_mem_of_ne_nil _ hne
    refine ⟨hall e he ▸ he, fun keys e he => ?_⟩
    cases keys with
    | nil => exact ⟨rfl, hall e he⟩
    | cons k keys => exact absurd he (not_holds_leaf hleaf)

end KeyTree

/-- The dropped keys are those whose branch removes what is there. -/
theorem KeyBranches.Regular.mem_dropped_iff {branches : KeyBranches} {k : String}
    (h : branches.Regular) : k ∈ branches.dropped ↔ (branches.under k).Removes [] := by
  match branches, h with
  | .nil, _ => exact iff_of_false nofun fun hremoves => KeyTree.not_holds_empty hremoves.1
  | .cons key tree rest, h =>
      have hrest := mem_dropped_iff (k := k) h.2.2.2
      have hleaf : (tree.isLeaf && tree.ends.all (· == .mapDelete)) = true ↔ tree.Removes [] := by
        rw [h.2.2.1.removes_nil_iff]
        constructor
        · intro hand
          rw [Bool.and_eq_true, List.all_eq_true] at hand
          exact ⟨hand.1, h.2.1 hand.1, fun e he => by simpa using hand.2 e he⟩
        · rintro ⟨hleaf, -, hall⟩
          rw [Bool.and_eq_true, List.all_eq_true]
          exact ⟨hleaf, fun e he => by simpa using hall e he⟩
      have hmem : k ∈ (cons key tree rest).dropped ↔
          (key = k ∧ tree.Removes []) ∨ k ∈ rest.dropped := by
        rw [dropped]
        split
        · next hand => simp [hleaf.mp hand, eq_comm]
        · next hand =>
          have hkeeps : ¬ tree.Removes [] := fun hremoves => hand (hleaf.mpr hremoves)
          simp [hkeeps]
      rw [hmem, hrest, under, under, KeyBranches.find?]
      by_cases hk : key = k
      · subst hk
        simp [h.1, KeyTree.Removes, KeyTree.not_holds_empty]
      · simp [hk]

end PathCopy
