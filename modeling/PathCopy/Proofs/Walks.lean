import PathCopy.Proofs.Positions

/-!
The walk over a tree of paths: the positions where a path goes on, each of them once. A position
comes before those below it, and what is under one key comes before what is under another one if a
path with the first key stands earlier in the list.
-/

namespace PathCopy

variable {paths : List KeyPath} {p : KeyPath} {k : String} {q r : List String} {t : KeyTree}

/-! ### The paths that begin with a key -/

def tails (k : String) (paths : List KeyPath) : List KeyPath :=
  paths.filterMap fun p => match p.keys with
    | key :: keys => if key = k then some ⟨keys, p.effect⟩ else none
    | [] => none

namespace KeyTree

theorem ofPaths_concat (paths : List KeyPath) (p : KeyPath) :
    ofPaths (paths ++ [p]) = (ofPaths paths).insert p.effect p.keys :=
  List.foldl_append

theorem insert_empty (effect : Effect) (keys : List String) :
    empty.insert effect keys = single effect keys := by
  cases keys with
  | nil => rfl
  | cons key keys => rfl

theorem branches_insert_nil (t : KeyTree) (effect : Effect) :
    (t.insert effect []).branches = t.branches := by
  obtain ⟨ends, branches⟩ := t
  rfl

theorem branches_insert_cons (t : KeyTree) (effect : Effect) (key : String) (keys : List String) :
    (t.insert effect (key :: keys)).branches = t.branches.insert effect key keys := by
  obtain ⟨ends, branches⟩ := t
  rfl

theorem under_insert_cons (t : KeyTree) (effect : Effect) (key : String) (keys : List String)
    (k : String) :
    (t.insert effect (key :: keys)).under k =
      if key = k then (t.under k).insert effect keys else t.under k := by
  rw [under, under, branches_insert_cons, KeyBranches.under, KeyBranches.under,
    KeyBranches.find?_insert]
  by_cases hk : key = k
  · subst hk
    rw [if_pos rfl, if_pos rfl, Option.getD_some]
    cases t.branches.find? key with
    | none => exact (insert_empty effect keys).symm
    | some t => rfl
  · rw [if_neg (Ne.symm hk), if_neg hk]

/-- What goes on with a key is the tree of the paths that begin with it. -/
theorem under_ofPaths (paths : List KeyPath) (k : String) :
    (ofPaths paths).under k = ofPaths (tails k paths) := by
  induction paths using List.reverseRecOn with
  | nil => rfl
  | append_singleton paths p ih =>
      obtain ⟨keys, effect⟩ := p
      rw [ofPaths_concat, tails, List.filterMap_append, ← tails]
      cases keys with
      | nil =>
          rw [under, branches_insert_nil, ← under, ih]
          exact congrArg ofPaths (List.append_nil _).symm
      | cons key keys =>
          rw [under_insert_cons, ih]
          by_cases hk : key = k
          · simp [hk, ofPaths_concat]
          · simp [hk]

end KeyTree

/-! ### First appearances -/

/-- The number of the first path that begins with a position. -/
def firstPath (paths : List KeyPath) (q : List String) : Nat :=
  paths.findIdx fun p => q <+: p.keys

theorem firstPath_cons (p : KeyPath) (paths : List KeyPath) (q : List String) :
    firstPath (p :: paths) q = if q <+: p.keys then 0 else firstPath paths q + 1 := by
  simp [firstPath, List.findIdx_cons, cond_eq_ite]

theorem firstPath_lt_length : firstPath paths q < paths.length ↔ ∃ p ∈ paths, q <+: p.keys := by
  simp [firstPath, List.findIdx_lt_length]

theorem firstPath_concat (p : KeyPath) (h : ∃ p ∈ paths, q <+: p.keys) :
    firstPath (paths ++ [p]) q = firstPath paths q := by
  rw [firstPath, List.findIdx_append]
  exact if_pos (firstPath_lt_length.mpr h)

theorem length_le_firstPath_concat (p : KeyPath) (h : ¬ ∃ p ∈ paths, q <+: p.keys) :
    paths.length ≤ firstPath (paths ++ [p]) q := by
  rw [firstPath, List.findIdx_append]
  exact (if_neg (mt firstPath_lt_length.mp h)).ge.trans' (Nat.le_add_left _ _)

/-- Among the paths that begin with a key, the order is that of the whole list. -/
theorem firstPath_lt_of_tails (h : firstPath (tails k paths) q < firstPath (tails k paths) r) :
    firstPath paths (k :: q) < firstPath paths (k :: r) := by
  induction paths with
  | nil => cases h
  | cons p paths ih =>
      obtain ⟨keys, effect⟩ := p
      by_cases hk : ∃ rest, keys = k :: rest
      · obtain ⟨rest, rfl⟩ := hk
        have htails : tails k (⟨k :: rest, effect⟩ :: paths) = ⟨rest, effect⟩ :: tails k paths := by
          simp [tails]
        rw [htails, firstPath_cons, firstPath_cons] at h
        simp only [firstPath_cons, List.cons_prefix_cons, true_and]
        by_cases hr : r <+: rest
        · simp [hr] at h
        · by_cases hq : q <+: rest
          · simp [hq, hr]
          · rw [if_neg hq, if_neg hr] at h ⊢
            exact Nat.succ_lt_succ (ih (Nat.lt_of_succ_lt_succ h))
      · have htails : tails k (⟨keys, effect⟩ :: paths) = tails k paths := by
          cases keys with
          | nil => rfl
          | cons key rest => simp_all [tails]
        have hnot : ∀ q : List String, ¬ (k :: q) <+: keys := by
          rintro q ⟨rest, rfl⟩
          exact hk ⟨q ++ rest, rfl⟩
        rw [firstPath_cons, firstPath_cons, if_neg (hnot q), if_neg (hnot r)]
        exact Nat.succ_lt_succ (ih (htails ▸ h))

/-- One position comes before another one: where they part, the first path that goes on as the one
does stands before the first path that goes on as the other does. -/
def Precedes (paths : List KeyPath) (q r : List String) : Prop :=
  ∃ c k l, c ++ [k] <+: q ∧ c ++ [l] <+: r ∧
    firstPath paths (c ++ [k]) < firstPath paths (c ++ [l])

theorem Precedes.cons (h : Precedes (tails k paths) q r) : Precedes paths (k :: q) (k :: r) := by
  obtain ⟨c, i, j, hq, hr, hlt⟩ := h
  exact ⟨k :: c, i, j, List.prefix_cons_inj k |>.mpr hq, List.prefix_cons_inj k |>.mpr hr,
    firstPath_lt_of_tails hlt⟩

theorem Precedes.ne (h : Precedes paths q r) : q ≠ r := by
  rintro rfl
  obtain ⟨c, k, l, hk, hl, hlt⟩ := h
  have hlength : (c ++ [k]).length = (c ++ [l]).length := by simp
  have heq : c ++ [k] = c ++ [l] :=
    (List.prefix_of_prefix_length_le hk hl hlength.le).eq_of_length hlength
  rw [heq] at hlt
  exact absurd hlt (Nat.lt_irrefl _)

/-! ### The branches of a node -/

namespace KeyBranches

def keys : KeyBranches → List String
  | .nil => []
  | .cons key _ rest => key :: rest.keys

theorem find?_eq_none {branches : KeyBranches} {k : String} :
    branches.find? k = none ↔ k ∉ branches.keys := by
  match branches with
  | .nil => simp [find?, keys]
  | .cons key tree rest =>
      have hrest : rest.find? k = none ↔ k ∉ rest.keys := find?_eq_none
      by_cases hk : key = k
      · simp [find?, keys, hk]
      · simp [find?, keys, hk, hrest, Ne.symm hk]

theorem keys_insert (branches : KeyBranches) (effect : Effect) (key : String)
    (keys : List String) :
    (branches.insert effect key keys).keys =
      if key ∈ branches.keys then branches.keys else branches.keys ++ [key] := by
  match branches with
  | .nil => rfl
  | .cons k tree rest =>
      have hrest := keys_insert rest effect key keys
      rw [insert]
      by_cases hk : k = key
      · simp [hk, KeyBranches.keys]
      · simp only [if_neg hk, KeyBranches.keys, hrest, List.mem_cons, Ne.symm hk, false_or]
        split <;> rfl

end KeyBranches

namespace KeyTree

/-- The keys of the branches are those that a path begins with. -/
theorem mem_keys_ofPaths : k ∈ (ofPaths paths).branches.keys ↔ ∃ p ∈ paths, [k] <+: p.keys := by
  induction paths using List.reverseRecOn with
  | nil => simp [ofPaths, empty, branches, KeyBranches.keys]
  | append_singleton paths p ih =>
      obtain ⟨keys, effect⟩ := p
      simp only [List.mem_append, or_and_right, exists_or, List.mem_singleton, exists_eq_left, ← ih]
      rw [ofPaths_concat]
      cases keys with
      | nil => simp [branches_insert_nil]
      | cons key keys =>
          rw [branches_insert_cons, KeyBranches.keys_insert, List.cons_prefix_cons]
          split
          · next hmem => simpa using fun hk => hk ▸ hmem
          · simp

/-- The branches stand in the order in which their keys appear first. -/
theorem keys_ofPaths_pairwise (paths : List KeyPath) :
    (ofPaths paths).branches.keys.Pairwise fun k l =>
      firstPath paths [k] < firstPath paths [l] := by
  induction paths using List.reverseRecOn with
  | nil => exact .nil
  | append_singleton paths p ih =>
      have hkept : (ofPaths paths).branches.keys.Pairwise fun k l =>
          firstPath (paths ++ [p]) [k] < firstPath (paths ++ [p]) [l] := by
        refine ih.imp_of_mem fun hk hl hlt => ?_
        rwa [firstPath_concat p (mem_keys_ofPaths.mp hk),
          firstPath_concat p (mem_keys_ofPaths.mp hl)]
      rw [ofPaths_concat]
      cases hkeys : p.keys with
      | nil => rwa [branches_insert_nil]
      | cons key keys =>
          rw [branches_insert_cons, KeyBranches.keys_insert]
          split
          · exact hkept
          · next hnew =>
            rw [List.pairwise_append]
            refine ⟨hkept, List.pairwise_singleton _ _, fun k hk l hl => ?_⟩
            obtain rfl := List.mem_singleton.mp hl
            have hold := mem_keys_ofPaths.mp hk
            rw [firstPath_concat p hold]
            exact (firstPath_lt_length.mpr hold).trans_le
              (length_le_firstPath_concat p (mt mem_keys_ofPaths.mpr hnew))

end KeyTree

/-! ### The walk -/

mutual

/-- The positions where a path of the tree goes on, in the order in which a walk comes to them. -/
def KeyTree.walk : KeyTree → List (List String)
  | .node _ .nil => []
  | .node _ (.cons key tree rest) => [] :: KeyBranches.walk (.cons key tree rest)

def KeyBranches.walk : KeyBranches → List (List String)
  | .nil => []
  | .cons key tree rest => tree.walk.map (key :: ·) ++ rest.walk

end

theorem KeyTree.walk_node {ends : List Effect} {branches : KeyBranches} (h : branches ≠ .nil) :
    (node ends branches).walk = [] :: branches.walk := by
  cases branches with
  | nil => contradiction
  | cons key tree rest => rfl

theorem KeyBranches.exists_of_mem_walk {branches : KeyBranches} {q : List String}
    (h : q ∈ branches.walk) : ∃ k ∈ branches.keys, ∃ rest, q = k :: rest := by
  match branches with
  | .nil => cases h
  | .cons key tree rest =>
      rw [walk, List.mem_append, List.mem_map] at h
      rcases h with ⟨q, -, rfl⟩ | h
      · exact ⟨key, List.mem_cons_self, q, rfl⟩
      · obtain ⟨k, hk, hrest⟩ := exists_of_mem_walk h
        exact ⟨k, List.mem_cons_of_mem _ hk, hrest⟩

theorem KeyBranches.Regular.mem_walk {branches : KeyBranches} {k : String} {q : List String}
    (h : branches.Regular) : k :: q ∈ branches.walk ↔ q ∈ (branches.under k).walk := by
  match branches, h with
  | .nil, _ => exact iff_of_false List.not_mem_nil List.not_mem_nil
  | .cons key tree rest, h =>
      have hrest := mem_walk (k := k) (q := q) h.2.2.2
      rw [walk, List.mem_append, List.mem_map, hrest, under_cons]
      by_cases hk : key = k
      · subst hk
        have hnone : q ∉ (rest.under key).walk := by
          rw [under, h.1]
          exact List.not_mem_nil
        simp [hnone]
      · simp [hk]

namespace KeyTree

/-- The walk comes to the positions where a path goes on. -/
theorem Regular.mem_walk (h : t.Regular) : q ∈ t.walk ↔ t.Passes q := by
  induction q generalizing t with
  | nil =>
      obtain ⟨ends, branches⟩ := t
      cases branches with
      | nil => exact iff_of_false (by simp [walk]) (not_passes_leaf rfl)
      | cons key tree rest => exact iff_of_true List.mem_cons_self (h.passes_nil rfl)
  | cons k q ih =>
      rw [passes_cons, ← ih (h.under k)]
      obtain ⟨ends, branches⟩ := t
      cases branches with
      | nil => exact iff_of_false List.not_mem_nil List.not_mem_nil
      | cons key tree rest =>
          rw [walk, List.mem_cons, or_iff_right (List.cons_ne_nil k q)]
          exact KeyBranches.Regular.mem_walk h

theorem mem_walk_ofPaths : q ∈ (ofPaths paths).walk ↔ Passed paths q :=
  (regular_ofPaths paths).mem_walk.trans passes_ofPaths

end KeyTree

/-- In a walk every position is either followed by those below it, or precedes what follows. Under
each key the walk is that of the paths that begin with it. -/
theorem KeyTree.walk_pairwise :
    (∀ (t : KeyTree) (paths : List KeyPath), t = .ofPaths paths →
      t.walk.Pairwise fun q r => (q <+: r ∧ q ≠ r) ∨ Precedes paths q r) ∧
    ∀ (branches : KeyBranches) (paths : List KeyPath), branches.Regular →
      (∀ k ∈ branches.keys, branches.under k = .ofPaths (tails k paths)) →
      (branches.keys.Pairwise fun k l => firstPath paths [k] < firstPath paths [l]) →
      branches.walk.Pairwise fun q r => (q <+: r ∧ q ≠ r) ∨ Precedes paths q r := by
  apply KeyTree.walk.mutual_induct
  · intro ends paths h
    exact .nil
  · intro ends key tree rest ih paths h
    rw [KeyTree.walk, List.pairwise_cons]
    constructor
    · intro q hq
      obtain ⟨k, -, rest, rfl⟩ := KeyBranches.exists_of_mem_walk hq
      exact .inl ⟨List.nil_prefix, (List.cons_ne_nil k rest).symm⟩
    · have hregular := KeyTree.regular_ofPaths paths
      have hkeys := KeyTree.keys_ofPaths_pairwise paths
      rw [← h] at hregular hkeys
      refine ih paths hregular (fun k _ => ?_) hkeys
      rw [← KeyTree.under_ofPaths, ← h]
      rfl
  · intro paths _ _ _
    exact .nil
  · intro key tree rest ih ihrest paths hregular hunder hkeys
    rw [KeyBranches.keys, List.pairwise_cons] at hkeys
    have htree : tree = .ofPaths (tails key paths) := by
      rw [← hunder key List.mem_cons_self, KeyBranches.under_cons, if_pos rfl]
    have hrest : ∀ k ∈ rest.keys, rest.under k = .ofPaths (tails k paths) := by
      intro k hk
      rw [← hunder k (List.mem_cons_of_mem _ hk), KeyBranches.under_cons, if_neg]
      rintro rfl
      exact KeyBranches.find?_eq_none.mp hregular.1 hk
    rw [KeyBranches.walk, List.pairwise_append, List.pairwise_map]
    refine ⟨(ih _ htree).imp fun h => ?_, ihrest paths hregular.2.2.2 hrest hkeys.2, ?_⟩
    · exact h.imp (fun h => ⟨(List.prefix_cons_inj key).mpr h.1, by simpa using h.2⟩) Precedes.cons
    -- A key is met first where the first path through it stands, which orders the two parts.
    · intro q hq r hr
      obtain ⟨q, -, rfl⟩ := List.mem_map.mp hq
      obtain ⟨l, hl, r, rfl⟩ := KeyBranches.exists_of_mem_walk hr
      exact .inr ⟨[], key, l, by simp, by simp, hkeys.1 l hl⟩

end PathCopy
