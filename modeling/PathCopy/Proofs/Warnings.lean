import PathCopy.Proofs.Walks

/-!
The warnings of a copy. At each position that the walk over the tree of paths comes to, the value
either holds a node, or does not fit the paths: a scalar stands there, or a container on the way
there has no such child. The copy warns of the positions of the second sort and of no others, once
each, in the order of the walk.
-/

namespace PathCopy

open Store

/-! ### Mismatches -/

def CopyWarning.position : CopyWarning → List String
  | pastScalar trail _ => trail
  | absentKey trail key => trail ++ [key]

theorem CopyWarning.path_eq (w : CopyWarning) : w.path = String.intercalate "." w.position := by
  match w with
  | pastScalar trail kind => rfl
  | absentKey trail key =>
      rw [path, position]
      by_cases htrail : trail = []
      · simp [htrail]
      · rw [if_neg (by simpa using htrail),
          String.intercalate_append_of_ne_nil htrail (List.cons_ne_nil key []),
          String.intercalate_singleton]

/-- A position that does not fit a value, with the warning about it: it holds a scalar, or a list, a
map or a record stands above it that has no child there. -/
inductive Store.Mismatch (st : Store) (v : Value) : List String → CopyWarning → Prop
  | pastScalar {q : List String} {s : Scalar} (holds : st.at? v q = some (.scalar s)) :
      st.Mismatch v q (.pastScalar q s.kind)
  | absentKey {trail : List String} {r : Ref} {key : String}
      (parent : st.at? v trail = some (.node r))
      (container : (st.body r).kind ∈ [Kind.list, .map, .record])
      (absent : (st.body r).child? key = none) :
      st.Mismatch v (trail ++ [key]) (.absentKey trail key)

/-- The warning about a position, where there is one. The keys are followed from a value that the
trail has led to. -/
def Store.mismatch? (st : Store) (trail : List String) (v : Value) :
    List String → Option CopyWarning
  | [] => match v with
    | .scalar s => some (.pastScalar trail s.kind)
    | .node _ => none
  | key :: keys => match v with
    | .scalar _ => none
    | .node r => match (st.body r).child? key with
      | some w => st.mismatch? (trail ++ [key]) w keys
      | none =>
        if keys = [] ∧ (st.body r).kind ≠ .date then some (.absentKey trail key) else none

section Mismatches

variable {st : Store} {u v : Value} {w : CopyWarning} {r : Ref} {trail keys q : List String}
  {key : String}

theorem Store.Mismatch.position_eq (h : st.Mismatch v q w) : w.position = q := by
  cases h with
  | pastScalar => rfl
  | absentKey => rfl

theorem Body.kind_mem_iff (body : Body) :
    body.kind ∈ [Kind.list, .map, .record] ↔ body.kind ≠ .date := by
  cases body <;> simp [Body.kind]

theorem Body.child?_date {body : Body} (h : body.kind = .date) (key : String) :
    body.child? key = none := by
  cases body with
  | date ms => rfl
  | list items => cases h
  | map entries => cases h
  | record cls fields => cases h

theorem Store.mismatch?_child (h : (st.body r).child? key = some v) :
    st.mismatch? trail (.node r) (key :: keys) = st.mismatch? (trail ++ [key]) v keys := by
  rw [mismatch?, h]

theorem Store.mismatch_of_mismatch? (hv : st.at? u trail = some v)
    (h : st.mismatch? trail v q = some w) : st.Mismatch u (trail ++ q) w := by
  induction q generalizing trail v with
  | nil =>
      cases v with
      | scalar s =>
          cases h
          rw [List.append_nil]
          exact .pastScalar hv
      | node r => cases h
  | cons key keys ih =>
      cases v with
      | scalar s => cases h
      | node r =>
          rw [mismatch?] at h
          cases hchild : (st.body r).child? key with
          | some c =>
              rw [hchild] at h
              have hc : st.at? u (trail ++ [key]) = some c := by
                simp [at?_append, hv, at?, hchild]
              simpa using ih hc h
          | none =>
              rw [hchild] at h
              obtain ⟨⟨rfl, hkind⟩, hw⟩ := Option.ite_none_right_eq_some.mp h
              cases hw
              exact .absentKey hv ((Body.kind_mem_iff _).mpr hkind) hchild

theorem Store.mismatch?_pastScalar {s : Scalar} (h : st.at? v q = some (.scalar s)) :
    st.mismatch? trail v q = some (.pastScalar (trail ++ q) s.kind) := by
  induction q generalizing trail v with
  | nil =>
      cases h
      rw [mismatch?, List.append_nil]
  | cons key keys ih =>
      obtain ⟨r, c, rfl, hchild, hc⟩ := at?_cons.mp h
      rw [mismatch?_child hchild, ih hc, List.append_assoc]
      rfl

theorem Store.mismatch?_absentKey (h : st.at? v q = some (.node r))
    (hkind : (st.body r).kind ≠ .date) (hchild : (st.body r).child? key = none) :
    st.mismatch? trail v (q ++ [key]) = some (.absentKey (trail ++ q) key) := by
  induction q generalizing trail v with
  | nil =>
      cases h
      rw [List.nil_append, mismatch?, hchild, List.append_nil]
      exact if_pos ⟨rfl, hkind⟩
  | cons k keys ih =>
      obtain ⟨s, c, rfl, hc, hr⟩ := at?_cons.mp h
      rw [List.cons_append, mismatch?_child hc, ih hr, List.append_assoc]
      rfl

theorem Store.mismatch?_eq_some : st.mismatch? [] v q = some w ↔ st.Mismatch v q w := by
  constructor
  · exact mismatch_of_mismatch? rfl
  · intro h
    cases h with
    | pastScalar hs => exact mismatch?_pastScalar hs
    | absentKey hr hkind hchild =>
        exact mismatch?_absentKey hr ((Body.kind_mem_iff _).mp hkind) hchild

/-- Below a position that does not fit there is nothing to warn of. -/
theorem Store.mismatch?_below (h : st.mismatch? trail v q = some w) (key : String)
    (keys : List String) : st.mismatch? trail v (q ++ key :: keys) = none := by
  induction q generalizing trail v with
  | nil =>
      cases v with
      | scalar s => rfl
      | node r => cases h
  | cons k ks ih =>
      cases v with
      | scalar s => cases h
      | node r =>
          rw [mismatch?] at h
          rw [List.cons_append, mismatch?]
          cases hchild : (st.body r).child? k with
          | some c => exact ih (by rwa [hchild] at h)
          | none => simp

theorem Store.Mismatch.not_prefix {r : List String} {w' : CopyWarning} (h : st.Mismatch v q w)
    (h' : st.Mismatch v r w') (hne : q ≠ r) : ¬ q <+: r := by
  rintro ⟨rest, rfl⟩
  cases rest with
  | nil => exact hne (List.append_nil q).symm
  | cons key keys =>
      have hnone := mismatch?_below (mismatch?_eq_some.mpr h) key keys
      rw [mismatch?_eq_some.mpr h'] at hnone
      cases hnone

end Mismatches

/-! ### The warnings of a walk -/

/-- What a walk over a value warns of. -/
def KeyTree.mismatches (st : Store) (trail : List String) (v : Value) (t : KeyTree) :
    List CopyWarning :=
  t.walk.filterMap (st.mismatch? trail v)

def KeyBranches.mismatches (st : Store) (trail : List String) (r : Ref) (branches : KeyBranches) :
    List CopyWarning :=
  branches.walk.filterMap (st.mismatch? trail (.node r))

section Walk

variable {st : Store} {trail : List String} {v : Value} {r : Ref} {key : String} {tree : KeyTree}
  {rest branches : KeyBranches} {ends : List Effect}

theorem KeyBranches.filterMap_walk_eq_nil {f : List String → Option CopyWarning}
    (hf : ∀ key keys, f (key :: keys) = none) (branches : KeyBranches) :
    branches.walk.filterMap f = [] := by
  rw [List.filterMap_eq_nil_iff]
  intro q hq
  obtain ⟨key, -, keys, rfl⟩ := exists_of_mem_walk hq
  exact hf key keys

theorem KeyTree.mismatches_leaf : (node ends .nil).mismatches st trail v = [] := rfl

theorem KeyTree.mismatches_scalar (h : branches ≠ .nil) (s : Scalar) :
    (node ends branches).mismatches st trail (.scalar s) = [.pastScalar trail s.kind] := by
  rw [mismatches, walk_node h, List.filterMap_cons,
    branches.filterMap_walk_eq_nil fun _ _ => rfl]
  rfl

theorem KeyTree.mismatches_node :
    (node ends branches).mismatches st trail (.node r) = branches.mismatches st trail r := by
  cases branches with
  | nil => rfl
  | cons key tree rest => rfl

theorem KeyBranches.mismatches_date (h : (st.body r).kind = .date) :
    branches.mismatches st trail r = [] := by
  refine branches.filterMap_walk_eq_nil fun key keys => ?_
  rw [mismatch?, Body.child?_date h]
  exact if_neg fun hhere => hhere.2 h

theorem KeyBranches.mismatches_nil : KeyBranches.nil.mismatches st trail r = [] := rfl

theorem KeyBranches.mismatches_cons_leaf :
    (cons key (.node ends .nil) rest).mismatches st trail r = rest.mismatches st trail r := rfl

theorem KeyBranches.mismatches_cons_child (h : (st.body r).child? key = some v) :
    (cons key tree rest).mismatches st trail r =
      tree.mismatches st (trail ++ [key]) v ++ rest.mismatches st trail r := by
  rw [mismatches, walk, List.filterMap_append, List.filterMap_map]
  congr 2
  funext keys
  exact mismatch?_child h

theorem KeyBranches.mismatches_cons_absent (hkind : (st.body r).kind ≠ .date)
    (hbranches : branches ≠ .nil) (h : (st.body r).child? key = none) :
    (cons key (.node ends branches) rest).mismatches st trail r =
      .absentKey trail key :: rest.mismatches st trail r := by
  have hhere : st.mismatch? trail (.node r) [key] = some (.absentKey trail key) := by
    simp [mismatch?, h, hkind]
  rw [mismatches, walk, KeyTree.walk_node hbranches, List.filterMap_append, List.filterMap_map,
    List.filterMap_cons_some (f := st.mismatch? trail (.node r) ∘ (key :: ·)) hhere,
    branches.filterMap_walk_eq_nil]
  · rfl
  · intro k keys
    exact mismatch?_below (q := [key]) hhere k keys

end Walk

/-! ### The copy -/

section Copy

variable {st : Store} {roots : List Value}

theorem Copying.warnings_base (c : Copying) (keepClass : Bool) (dropped : List String)
    (body : Body) : (c.base keepClass dropped body).2.warnings = c.warnings := by
  cases body with
  | date ms => rfl
  | list items => rfl
  | map entries => rfl
  | record cls fields =>
      rw [base, recordBase_eq]
      split <;> rfl

/-- A copy adds the warnings of its walk to those before. They are about the store that the copy
began in: what it makes itself is never walked over. -/
theorem KeyTree.copy_warnings (hsound : st.Sound roots) (keepClass : Bool) :
    (∀ (trail : List String) (v : Value) (tree : KeyTree) (c : Copying),
      st.Within roots v → st.Grown roots c.store →
      (tree.copy keepClass trail v c).2.warnings = c.warnings ++ tree.mismatches st trail v) ∧
    ∀ (trail : List String) (body : Body) (branches : KeyBranches) (c : Copying),
      (∀ v ∈ body.children, st.Within roots v) → st.Grown roots c.store →
      ∀ r, st.body r = body → body.kind ≠ .date →
      (branches.copyChildren keepClass trail body c).2.warnings =
        c.warnings ++ branches.mismatches st trail r := by
  refine KeyTree.copy_induct hsound keepClass
    (P := fun trail v tree c x => x.2.warnings = c.warnings ++ tree.mismatches st trail v)
    (Q := fun trail body branches c x => ∀ r, st.body r = body → body.kind ≠ .date →
      x.2.warnings = c.warnings ++ branches.mismatches st trail r)
    ?shared ?scalar ?date ?container ?none ?leaf ?absent ?child
  case shared =>
    intro trail v tree c hleaf _ _
    obtain ⟨ends, rfl⟩ := eq_leaf hleaf
    rw [mismatches_leaf, List.append_nil]
  case scalar =>
    intro trail a ends branches c hne
    rw [mismatches_scalar hne]
    rfl
  -- A node is no mismatch itself, and a date ends the paths silently.
  case date =>
    intro trail r ms ends branches c hne hr _
    rw [mismatches_node, KeyBranches.mismatches_date (congrArg Body.kind hr), List.append_nil]
    rfl
  case container =>
    intro trail r ends branches c first c₁ new c₂ hcopy ih
    have hbefore := c.warnings_base keepClass branches.dropped (st.body r)
    rw [hcopy.base] at hbefore
    rw [mismatches_node, ← hbefore]
    exact ih r rfl hcopy.kind
  -- The children are walked over one after another, and one that is lacking is warned of once.
  case none =>
    intro trail body c r _ _
    rw [KeyBranches.mismatches_nil, List.append_nil]
  case leaf =>
    intro trail body key ends rest c _ _ ih r hr hkind
    rw [ih r hr hkind, KeyBranches.mismatches_cons_leaf]
  case absent =>
    rintro trail body key ⟨ends, branches⟩ rest c _ hleaf hchild rfl _ _ ih r hr hkind
    have hbranches : branches ≠ .nil := by
      rintro rfl
      cases hleaf
    rw [ih r hr hkind,
      KeyBranches.mismatches_cons_absent (hr ▸ hkind) hbranches (hr ▸ hchild), Copying.warn,
      List.append_assoc]
    rfl
  case child =>
    intro trail body key tree rest c w w' c₁ new c₂ hcopy ih ihrest r hr hkind
    rw [ihrest r hr hkind, ih, KeyBranches.mismatches_cons_child (hr ▸ hcopy.child),
      List.append_assoc]

theorem Store.copy_warnings {v : Value} (hsound : st.Sound [v]) (keepClass : Bool)
    (paths : List KeyPath) :
    (st.copy keepClass v paths).2.warnings = (KeyTree.ofPaths paths).mismatches st [] v :=
  (KeyTree.copy_warnings hsound keepClass).1 [] v (.ofPaths paths) ⟨st, []⟩
    (within_of_mem List.mem_cons_self) (grown_refl st [v])

/-- The warnings are those of the positions that a path goes on behind and that do not fit the
value, one for each of them, with the keys of the position joined by dots. No such position is above
another one, and the warnings come in the order in which a walk in depth reaches the positions,
where the branches at each place stand in the order in which their keys first appear in the list of
paths. -/
theorem Store.copy_warns_exactly {v : Value} (hsound : st.Sound [v]) (keepClass : Bool)
    (paths : List KeyPath) :
    (∀ q w, w ∈ (st.copy keepClass v paths).2.warnings ∧ w.position = q ↔
      Passed paths q ∧ st.Mismatch v q w) ∧
    ((st.copy keepClass v paths).2.warnings.map CopyWarning.position).Nodup ∧
    (∀ w ∈ (st.copy keepClass v paths).2.warnings,
      w.path = String.intercalate "." w.position) ∧
    (st.copy keepClass v paths).2.warnings.Pairwise fun w w' =>
      Precedes paths w.position w'.position := by
  rw [copy_warnings hsound, KeyTree.mismatches]
  have hmem : ∀ q w, w ∈ (KeyTree.ofPaths paths).walk.filterMap (st.mismatch? [] v) ∧
      w.position = q ↔ Passed paths q ∧ st.Mismatch v q w := by
    intro q w
    simp only [List.mem_filterMap, KeyTree.mem_walk_ofPaths, mismatch?_eq_some]
    constructor
    · rintro ⟨⟨r, hr, hw⟩, rfl⟩
      rw [hw.position_eq]
      exact ⟨hr, hw⟩
    · rintro ⟨hq, hw⟩
      exact ⟨⟨q, hq, hw⟩, hw.position_eq⟩
  have horder : ((KeyTree.ofPaths paths).walk.filterMap (st.mismatch? [] v)).Pairwise fun w w' =>
      Precedes paths w.position w'.position := by
    refine (KeyTree.walk_pairwise.1 _ paths rfl).filterMap _ fun q r hqr w hw w' hw' => ?_
    have hfirst := mismatch?_eq_some.mp hw
    have hsecond := mismatch?_eq_some.mp hw'
    rw [hfirst.position_eq, hsecond.position_eq]
    exact hqr.resolve_left fun h => hfirst.not_prefix hsecond h.2 h.1
  refine ⟨hmem, List.pairwise_map.mpr (horder.imp Precedes.ne), ?_, horder⟩
  exact fun w _ => w.path_eq

def roster : Store :=
  ⟨#[⟨false, .list [.text "a"]⟩, ⟨true, .date 0⟩,
    ⟨true, .record none (.ofList
      [("name", .text "north"), ("rows", .node ⟨0⟩), ("since", .node ⟨1⟩)])⟩]⟩

def rosterPaths : List KeyPath :=
  [⟨["name", "x"], .assign⟩, ⟨["rows", "7", "v"], .assign⟩, ⟨["since", "x", "y"], .assign⟩,
    ⟨["owner", "x"], .mapSet⟩, ⟨["rows", "0", "v"], .assign⟩, ⟨["owner", "y"], .mapSet⟩,
    ⟨["note"], .assign⟩]

/-- The index and the text are warned of; the record may lack the key that a path ends with. -/
theorem copy_warns_exactly_roster :
    .absentKey ["rows"] "7" ∈ (roster.copy true (.node ⟨2⟩) rosterPaths).2.warnings ∧
    .pastScalar ["rows", "0"] .string ∈ (roster.copy true (.node ⟨2⟩) rosterPaths).2.warnings ∧
    ∀ w ∈ (roster.copy true (.node ⟨2⟩) rosterPaths).2.warnings, w.position ≠ ["note"] := by
  have hsound : roster.Sound [.node ⟨2⟩] := Store.Layered.sound (by decide) (by decide)
  obtain ⟨hmem, -⟩ := Store.copy_warns_exactly hsound true rosterPaths
  refine ⟨?_, ?_, fun w hw hposition => ?_⟩
  · have hrow : roster.Mismatch (.node ⟨2⟩) (["rows"] ++ ["7"]) (.absentKey ["rows"] "7") :=
      .absentKey rfl (by decide) rfl
    exact ((hmem ["rows", "7"] _).mpr ⟨by decide, hrow⟩).1
  · exact ((hmem ["rows", "0"] _).mpr ⟨by decide, .pastScalar rfl⟩).1
  · exact absurd ((hmem _ w).mp ⟨hw, hposition⟩).1 (by decide)

/-- Two paths through the lacking key are warned of once, and the date ends its path silently. -/
example : (roster.copy false (.node ⟨2⟩) rosterPaths).2.warnings =
    [.pastScalar ["name"] .string, .absentKey ["rows"] "7", .pastScalar ["rows", "0"] .string,
      .absentKey [] "owner"] := by
  decide +kernel

end Copy

end PathCopy
