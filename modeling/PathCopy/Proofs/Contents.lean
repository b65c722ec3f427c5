import PathCopy.Proofs.Fidelity

/-!
Contents of a copy. A copied node holds what the node that it stands for holds, but for three
things: copies stand for the children that a path passes, the dropped entries of a map are missing,
and a record either becomes bare or begins with the fields of its constructor, whose values stay
where the record has none of its own.
-/

namespace PathCopy

open Store

/-- What the copy of a container at the position `q` holds, apart from the values of its children. -/
def Body.copyShape (keepClass : Bool) (paths : List KeyPath) (q : List String) : Body → Shape
  | date ms => .date ms
  | list items => .list items.length
  | map entries => .map (entries.keys.filter fun k => ¬ Dropped paths (q ++ [k]))
  | record cls fields =>
    match keptDefaults keepClass cls with
    | some es =>
      .record cls ((Table.ofList es).keys ++ fields.keys.filter (· ∉ (Table.ofList es).keys))
    | none => .record none fields.keys

namespace Store

/-- The value was built from a template after the store had been `st`, and nothing that it reaches
has changed since. -/
def Built (st st' : Store) (t : Template) (w : Value) : Prop :=
  ∃ st₁, st.size ≤ st₁.size ∧ (t.build st₁).1 = w ∧ (t.build st₁).2.AgreeBelow st' w

/-- How the copy of a value differs from it. At a position that no path passes there is the value
itself. Everywhere else stands a new node with the children of the old one or copies of them; what
a record holds besides is what the constructor of its class gives. -/
inductive CopyOf (st st' : Store) (keepClass : Bool) (paths : List KeyPath) :
    List String → Value → Value → Prop
  | shared {q : List String} {v : Value} (h : v.isNode → ¬ Passed paths q) :
      CopyOf st st' keepClass paths q v v
  | copied {q : List String} {r s : Ref} (passed : Passed paths q) (fresh : st.Fresh st' (.node s))
      (shape : (st'.body s).shape = (st.body r).copyShape keepClass paths q)
      (children : ∀ {k v w}, (st.body r).child? k = some v → (st'.body s).child? k = some w →
        CopyOf st st' keepClass paths (q ++ [k]) v w)
      (unnamed : ∀ {items items'}, st.body r = .list items → st'.body s = .list items' →
        ∀ i, (∀ k, Number.readIndex? k ≠ some i) → items'[i]? = items[i]?)
      (defaults : ∀ {cls fields k w}, st.body r = .record cls fields → fields.get? k = none →
        (st'.body s).child? k = some w → ∃ es t, keptDefaults keepClass cls = some es ∧
          (Table.ofList es).get? k = some t ∧ st.Built st' t w) :
      CopyOf st st' keepClass paths q (.node r) (.node s)

end Store

/-! ### What a class gives -/

section Building

variable {st st' st'' : Store} {t : Template} {w : Value} {k : String}

theorem Store.Built.mono (h : st.Built st' t w) (hagree : st'.AgreeBelow st'' w) :
    st.Built st'' t w := by
  obtain ⟨st₁, hsize, hbuild, hbelow⟩ := h
  exact ⟨st₁, hsize, hbuild, hbelow.trans hagree⟩

/-- The fields of a new instance are built one after another. -/
theorem Template.buildEntries_built (es : List (String × Template)) {st₁ : Store}
    (hsize : st.size ≤ st₁.size) :
    List.Forall₂ (fun a e => e.1 = a.1 ∧ st.Built (buildEntries es st₁).2 a.2 e.2) es
      (buildEntries es st₁).1 := by
  induction es generalizing st₁ with
  | nil => exact .nil
  | cons e es ih =>
      obtain ⟨key, t⟩ := e
      have hsound := sound_nil st₁
      have hfirst := t.build_adds hsound st₁ (grown_refl st₁ [])
      have hrest := buildEntries_adds hsound (fun e (_ : e ∈ es) => e.2.build_adds hsound)
        hfirst.grown
      refine .cons ⟨rfl, st₁, hsize, rfl, ?_⟩ (ih (hsize.trans hfirst.ext.size_le))
      exact hfirst.grown.agreeBelow hsound (hfirst.available _ List.mem_cons_self) hrest.ext

theorem keys_putEntry_of_notMem {α : Type} {a : α} {es : List (String × α)}
    (h : k ∉ es.map Prod.fst) : (putEntry k a es).map Prod.fst = es.map Prod.fst ++ [k] := by
  induction es with
  | nil => rfl
  | cons e es ih =>
      rw [List.map_cons, List.mem_cons, not_or] at h
      rw [putEntry, if_neg (Ne.symm h.1), List.map_cons, ih h.2, List.map_cons, List.cons_append]

/-- The keys of a table come first, and after them those that are new to it. -/
theorem Table.keys_insertAll_append {α : Type} {t : Table α} {es : List (String × α)}
    (hnodup : (es.map Prod.fst).Nodup) :
    (t.insertAll es).keys = t.keys ++ (es.map Prod.fst).filter (· ∉ t.keys) := by
  induction es generalizing t with
  | nil => rw [List.map_nil, List.filter_nil, List.append_nil]; rfl
  | cons e es ih =>
      rw [List.map_cons, List.nodup_cons] at hnodup
      rw [insertAll_cons, ih hnodup.2, List.map_cons, List.filter_cons]
      by_cases hmem : e.1 ∈ t.keys
      · have hkeys : (t.insert e.1 e.2).keys = t.keys := keys_putEntry_of_mem hmem
        rw [hkeys, if_neg (by simpa using hmem)]
      · have hkeys : (t.insert e.1 e.2).keys = t.keys ++ [e.1] := keys_putEntry_of_notMem hmem
        have hfilter : (es.map Prod.fst).filter (· ∉ t.keys ++ [e.1]) =
            (es.map Prod.fst).filter (· ∉ t.keys) := by
          refine List.filter_congr fun l hl => ?_
          have hne : l ≠ e.1 := fun heq => hnodup.1 (heq ▸ hl)
          simp [hne]
        rw [hkeys, if_pos (by simpa using hmem), hfilter, List.append_assoc, List.singleton_append]

end Building

/-! ### The paths of a tree at a position -/

/-- What the paths are behind a position is what the tree is. -/
structure KeyTree.IsAt (t : KeyTree) (paths : List KeyPath) (q : List String) : Prop where
  passes : ∀ p, t.Passes p ↔ Passed paths (q ++ p)
  removes : ∀ p, t.Removes p ↔ Dropped paths (q ++ p)

section Trees

variable {t : KeyTree} {paths : List KeyPath} {q : List String}

theorem KeyTree.isAt_ofPaths (paths : List KeyPath) : (KeyTree.ofPaths paths).IsAt paths [] :=
  ⟨fun _ => passes_ofPaths, fun _ => removes_ofPaths⟩

theorem KeyTree.IsAt.under (h : t.IsAt paths q) (k : String) : (t.under k).IsAt paths (q ++ [k]) where
  passes p := by rw [← passes_cons, h.passes, List.append_assoc, List.singleton_append]
  removes p := by rw [← removes_cons, h.removes, List.append_assoc, List.singleton_append]

theorem KeyTree.IsAt.passed (h : t.IsAt paths q) (hregular : t.Regular) (hleaf : t.isLeaf = false) :
    Passed paths q := by
  have hpasses := (h.passes []).mp (hregular.passes_nil hleaf)
  rwa [List.append_nil] at hpasses

theorem KeyTree.IsAt.not_passed (h : t.IsAt paths q) (hleaf : t.isLeaf) : ¬ Passed paths q := by
  intro hpassed
  rw [← List.append_nil q] at hpassed
  exact not_passes_leaf hleaf ((h.passes []).mpr hpassed)

theorem KeyTree.IsAt.mem_dropped_iff {ends : List Effect} {branches : KeyBranches}
    (h : (KeyTree.node ends branches).IsAt paths q) (hregular : branches.Regular) {k : String} :
    k ∈ branches.dropped ↔ Dropped paths (q ++ [k]) := by
  have hremoves := (h.under k).removes []
  rw [List.append_nil] at hremoves
  exact hregular.mem_dropped_iff.trans hremoves

theorem KeyBranches.forall_find?_rest {key : String} {tree : KeyTree} {rest : KeyBranches}
    {P : String → KeyTree → Prop} (hkey : rest.find? key = none)
    (h : ∀ k t, (KeyBranches.cons key tree rest).find? k = some t → P k t) :
    ∀ k t, rest.find? k = some t → P k t := by
  intro k t ht
  refine h k t ?_
  rw [find?, if_neg, ht]
  rintro rfl
  rw [hkey] at ht
  cases ht

end Trees

/-! ### The copy -/

section Copy

variable {st st' st'' : Store} {roots : List Value} {keepClass : Bool} {paths : List KeyPath}
  {q : List String} {u v w : Value} {r : Ref} {body : Body} {branches : KeyBranches}
  {new : List (String × Value)}

theorem Store.CopyOf.mono (h : st.CopyOf st' keepClass paths q v w)
    (hagree : st'.AgreeBelow st'' w) (hsize : st'.size ≤ st''.size) :
    st.CopyOf st'' keepClass paths q v w := by
  induction h with
  | shared h => exact .shared h
  | @copied q r s passed fresh shape _ unnamed defaults ih =>
      rw [← hagree.body_eq] at shape unnamed
      obtain ⟨t, ht, hlow, hhigh⟩ := fresh
      refine .copied passed ⟨t, ht, hlow, hhigh.trans_le hsize⟩ shape (fun hv hw => ?_) unnamed
        fun hbody hown hw => ?_
      · rw [hagree.body_eq] at hw
        exact ih hv hw (hagree.child (Body.mem_children_of_child? hw))
      · rw [hagree.body_eq] at hw
        obtain ⟨es, t, hes, ht, hbuilt⟩ := defaults hbody hown hw
        exact ⟨es, t, hes, ht, hbuilt.mono (hagree.child (Body.mem_children_of_child? hw))⟩

theorem keys_copiedMap {entries : Table Value} {ends : List Effect}
    (htree : (KeyTree.node ends branches).IsAt paths q) (hregular : branches.Regular)
    {st₂ : Store} (hlays : branches.Lays st (.map entries) st₂ new) :
    ((eraseKeys entries branches.dropped).insertAll new).keys =
      entries.keys.filter fun k => ¬ Dropped paths (q ++ [k]) := by
  rw [Table.keys_insertAll, keys_eraseKeys]
  · exact List.filter_congr fun k _ => by simp [htree.mem_dropped_iff hregular]
  · intro k hk
    have hdropped := hlays.notMem_dropped hregular hk
    obtain ⟨⟨key, u⟩, hu, rfl⟩ := List.mem_map.mp hk
    obtain ⟨c, hc⟩ := hlays.origin hu
    rw [keys_eraseKeys, List.mem_filter]
    exact ⟨isSome_findEntry_iff.mp (Option.isSome_of_eq_some hc), by simpa using hdropped⟩

/-- The first fields of a record's copy are those of its constructor, then its own. -/
theorem Copying.keys_recordBase (c : Copying) (keepClass : Bool) (paths : List KeyPath)
    (q : List String) (cls : Option Class) (fields : Table Value) :
    (Body.record (c.recordBase keepClass cls fields).1
      (c.recordBase keepClass cls fields).2.1).shape =
        (Body.record cls fields).copyShape keepClass paths q := by
  rw [recordBase_eq, Body.copyShape]
  cases keptDefaults keepClass cls with
  | none => rfl
  | some es =>
      have hbuilt := Template.buildEntries_built es (Nat.le_refl c.store.size)
      have hkeys := (Table.Match.ofList hbuilt).keys
      rw [Body.shape, Table.keys_insertAll_append fields.nodup]
      exact congrArg (fun keys => Shape.record cls (keys ++ fields.keys.filter (· ∉ keys))) hkeys

/-- A first field that is not the record's own has been built for the constructor. -/
theorem Copying.recordBase_built {c : Copying} (hsize : st.size ≤ c.store.size)
    {cls : Option Class} {fields : Table Value} {k : String} (hown : fields.get? k = none)
    (hw : (c.recordBase keepClass cls fields).2.1.get? k = some w) :
    ∃ es t, keptDefaults keepClass cls = some es ∧ (Table.ofList es).get? k = some t ∧
      st.Built (c.recordBase keepClass cls fields).2.2.store t w := by
  rw [recordBase_eq] at hw ⊢
  cases hes : keptDefaults keepClass cls with
  | none =>
      rw [hes] at hw
      exact absurd (hown.symm.trans hw) (by simp)
  | some es =>
      rw [hes] at hw
      have htable := Table.Match.ofList (Template.buildEntries_built es hsize)
      obtain ⟨hkeys, hfound⟩ := (forall₂_iff_findEntry (Table.nodup _)).mp htable
      have hnotMem : k ∉ fields.entries.map Prod.fst := by
        rw [← isSome_findEntry_iff]
        exact ne_of_eq_of_ne (congrArg Option.isSome hown) (by simp)
      dsimp only at hw
      rw [Table.get?_insertAll_of_notMem hnotMem] at hw
      have hmem := isSome_findEntry_iff.mp (Option.isSome_of_eq_some hw)
      obtain ⟨t, ht⟩ := Option.isSome_iff_exists.mp (isSome_findEntry_iff.mpr (hkeys ▸ hmem))
      exact ⟨es, t, rfl, ht, hfound k t w ht hw⟩

section Container

variable {trail : List String} {ends : List Effect} {first : Body} {c c₁ c₂ : Copying}

theorem Store.CopiesNode.shape
    (h : st.CopiesNode roots keepClass trail r branches c first c₁ new c₂)
    (htree : (KeyTree.node ends branches).IsAt paths trail) (hregular : branches.Regular)
    (hlays : branches.Lays st (st.body r) c₂.store new) :
    (first.fill new).shape = (st.body r).copyShape keepClass paths trail := by
  have hkind := h.kind
  have hfirst := h.base
  cases hbody : st.body r with
  | date ms => exact absurd (congrArg Body.kind hbody) hkind
  | list items =>
      rw [hbody] at hfirst
      cases hfirst
      exact congrArg Shape.list (length_setItems items new)
  | map entries =>
      rw [hbody] at hfirst hlays
      cases hfirst
      exact congrArg Shape.map (keys_copiedMap htree hregular hlays)
  | record cls fields =>
      rw [hbody] at hfirst hlays
      cases hfirst
      rw [← c.keys_recordBase keepClass paths trail cls fields, Body.fill, Body.shape, Body.shape,
        Table.keys_insertAll]
      intro k hk
      obtain ⟨⟨key, u⟩, hu, rfl⟩ := List.mem_map.mp hk
      obtain ⟨v, hv⟩ := hlays.origin hu
      exact isSome_findEntry_iff.mp (Option.isSome_of_eq_some (c.get?_recordBase keepClass cls hv))

/-- The elements of a list that no key leads to stay in their places. -/
theorem Store.CopiesNode.unnamed
    (h : st.CopiesNode roots keepClass trail r branches c first c₁ new c₂)
    {items items' : List Value} (hitems : st.body r = .list items)
    (hitems' : first.fill new = .list items') {i : ℕ}
    (hi : ∀ k, Number.readIndex? k ≠ some i) : items'[i]? = items[i]? := by
  have hfirst := h.base
  rw [hitems] at hfirst
  cases hfirst
  cases hitems'
  exact getElem?_setItems_of_ne fun k _ => hi k

theorem Store.CopiesNode.defaults (hsound : st.Sound roots)
    (h : st.CopiesNode roots keepClass trail r branches c first c₁ new c₂)
    (hlays : branches.Lays st (st.body r) c₂.store new) {cls : Option Class} {fields : Table Value}
    (hfields : st.body r = .record cls fields) {k : String} (hown : fields.get? k = none)
    (hw : (first.fill new).child? k = some w) :
    ∃ es t, keptDefaults keepClass cls = some es ∧ (Table.ofList es).get? k = some t ∧
      st.Built c₂.store t w := by
  have hfirst := h.base
  have hbegins := h.begins
  rw [hfields] at hfirst hlays
  cases hfirst
  have hnot : k ∉ new.map Prod.fst := by
    intro hk
    obtain ⟨⟨key, u⟩, hu, rfl⟩ := List.mem_map.mp hk
    obtain ⟨v, hv⟩ := hlays.origin hu
    exact absurd (hown.symm.trans hv) (by simp)
  rw [Body.fill, Body.child?, Table.get?_insertAll_of_notMem hnot] at hw
  obtain ⟨es, t, hes, ht, hbuilt⟩ := Copying.recordBase_built h.grown.size_le hown hw
  refine ⟨es, t, hes, ht, hbuilt.mono ?_⟩
  exact hbegins.grown.agreeBelow hsound
    (hbegins.available w (Table.mem_values_of_get? hw)) h.adds.ext

/-- The copy of a container is made of the copied children, of the other ones that are not dropped,
and of what a class builds. -/
theorem Store.CopyOf.container (hsound : st.Sound roots)
    (h : st.CopiesNode roots keepClass trail r branches c first c₁ new c₂)
    (htree : (KeyTree.node ends branches).IsAt paths trail) (hregular : branches.Regular)
    (hlays : branches.Lays st (st.body r) c₂.store new)
    (hnew : ∀ k u, (k, u) ∈ new → ∃ w, (st.body r).child? k = some w ∧
      st.CopyOf c₂.store keepClass paths (trail ++ [k]) w u) :
    st.CopyOf (c₂.store.alloc (first.fill new)).2 keepClass paths trail (.node r)
      (c₂.store.alloc (first.fill new)).1 := by
  have hadds := h.begins.append hsound h.adds
  have hagree : ∀ {k w}, (first.fill new).child? k = some w →
      c₂.store.AgreeBelow (c₂.store.alloc (first.fill new)).2 w := by
    intro k w hw
    have hmem := Body.mem_children_fill (Body.mem_children_of_child? hw)
    have havailable := hadds.available w (List.mem_append.mpr hmem)
    exact hadds.grown.agreeBelow hsound havailable (extends_alloc c₂.store _)
  rw [fst_alloc]
  refine .copied (htree.passed hregular (KeyTree.isLeaf_node h.passed))
    ⟨⟨c₂.store.size⟩, rfl, hadds.grown.size_le, by simp⟩ ?_ ?_ ?_ ?_
  · rw [body_alloc_self, h.shape htree hregular hlays]
  · intro k v w hv hw
    rw [body_alloc_self] at hw
    -- Under each key stands the copy of a child or the child itself. No path passes the latter.
    by_cases hmem : k ∈ new.map Prod.fst
    · obtain ⟨u, hu, hchild⟩ := h.refills.replaced hv hmem
      obtain ⟨c, hc, hcopy⟩ := hnew k u hu
      rw [hchild] at hw
      cases hw
      rw [hv] at hc
      cases hc
      exact hcopy.mono (hagree hchild) (by simp)
    · rw [h.refills.kept hv hmem] at hw
      split at hw
      · cases hw
      · cases hw
        refine .shared fun _ => (htree.under k).not_passed ?_
        by_contra hpass
        exact hmem (hlays.copied hv (eq_false_of_ne_true hpass))
  · intro items items' hitems hitems' i hi
    rw [body_alloc_self] at hitems'
    exact h.unnamed hitems hitems' hi
  · intro cls fields k w hfields hown hw
    rw [body_alloc_self] at hw
    obtain ⟨es, t, hes, ht, hbuilt⟩ := h.defaults hsound hlays hfields hown hw
    exact ⟨es, t, hes, ht, hbuilt.mono (hagree hw)⟩

end Container

theorem KeyTree.copy_copyOf (hsound : st.Sound roots) (keepClass : Bool) (paths : List KeyPath) :
    (∀ (trail : List String) (v : Value) (tree : KeyTree) (c : Copying),
      st.Within roots v → st.Grown roots c.store → tree.Regular → tree.IsAt paths trail →
      st.CopyOf (tree.copy keepClass trail v c).2.store keepClass paths trail v
        (tree.copy keepClass trail v c).1) ∧
    ∀ (trail : List String) (body : Body) (branches : KeyBranches) (c : Copying),
      (∀ v ∈ body.children, st.Within roots v) → st.Grown roots c.store → branches.Regular →
      (∀ k t, branches.find? k = some t → t.IsAt paths (trail ++ [k])) →
      ∀ k u, (k, u) ∈ (branches.copyChildren keepClass trail body c).1 →
        ∃ w, body.child? k = some w ∧
          st.CopyOf (branches.copyChildren keepClass trail body c).2.store keepClass paths
            (trail ++ [k]) w u := by
  -- Which children are copied at all is known from the layout.
  have hlays := (KeyTree.copy_lays hsound keepClass).2
  have hbranches : ∀ {ends : List Effect} {branches : KeyBranches} {trail : List String},
      (KeyTree.node ends branches).IsAt paths trail →
      ∀ k t, branches.find? k = some t → t.IsAt paths (trail ++ [k]) := by
    intro ends branches trail htree k t ht
    have hunder := htree.under k
    rwa [KeyTree.under, KeyTree.branches, KeyBranches.under, ht, Option.getD_some] at hunder
  refine KeyTree.copy_induct hsound keepClass
    (P := fun trail v tree _ x => tree.Regular → tree.IsAt paths trail →
      st.CopyOf x.2.store keepClass paths trail v x.1)
    (Q := fun trail body branches _ x => branches.Regular →
      (∀ k t, branches.find? k = some t → t.IsAt paths (trail ++ [k])) →
      ∀ k u, (k, u) ∈ x.1 → ∃ w, body.child? k = some w ∧
        st.CopyOf x.2.store keepClass paths (trail ++ [k]) w u)
    ?shared ?scalar ?date ?container ?none ?leaf ?absent ?child
  case shared => exact fun _ _ _ _ hleaf _ _ _ htree => .shared fun _ => htree.not_passed hleaf
  case scalar =>
    exact fun _ _ _ _ _ _ _ _ => .shared fun hnode => absurd hnode Bool.false_ne_true
  case date =>
    intro trail r ms ends branches c hne hr hc hregular htree
    have hpassed := htree.passed hregular (KeyTree.isLeaf_node hne)
    have hnochild : ∀ {k w}, (st.body r).child? k ≠ some w := by simp [hr, Body.child?]
    refine .copied hpassed ⟨⟨c.store.size⟩, rfl, hc.size_le, by simp [Copying.alloc]⟩ ?_
      (fun hv => absurd hv hnochild) (fun hitems => ?_) fun hfields => ?_
    · rw [hr]
      exact congrArg Body.shape (body_alloc_self c.store (.date ms))
    · rw [hr] at hitems
      cases hitems
    · rw [hr] at hfields
      cases hfields
  case container =>
    intro trail r ends branches c first c₁ new c₂ hcopy ih hregular htree
    have hchildren := (hcopy.grown.children_within hsound hcopy.within).2
    have hlaid := hlays trail (st.body r) branches c₁ hchildren hcopy.begins.grown hregular
    rw [hcopy.children] at hlaid
    exact .container hsound hcopy htree hregular hlaid (ih hregular (hbranches htree))
  case none => exact fun _ _ _ _ _ _ _ hu => by cases hu
  case leaf =>
    intro trail body key ends rest c _ _ ih hregular htrees
    exact ih hregular.2.2.2 (KeyBranches.forall_find?_rest hregular.1 htrees)
  case absent =>
    intro trail body key tree rest c c' _ _ _ _ _ ih hregular htrees
    exact ih hregular.2.2.2 (KeyBranches.forall_find?_rest hregular.1 htrees)
  case child =>
    intro trail body key tree rest c x x' c₁ new c₂ hcopy ih ihrest hregular htrees k u hu
    rcases List.mem_cons.mp hu with heq | hu
    · cases heq
      have hcopied := ih hregular.2.2.1 (htrees key tree (by rw [KeyBranches.find?, if_pos rfl]))
      refine ⟨x, hcopy.child, hcopied.mono ?_ hcopy.adds.ext.size_le⟩
      exact hcopy.begins.grown.agreeBelow hsound (hcopy.begins.available _ List.mem_cons_self)
        hcopy.adds.ext
    · exact ihrest hregular.2.2.2 (KeyBranches.forall_find?_rest hregular.1 htrees) k u hu

/-- A copy has the contents of the copied value. What the value holds stays as it is; the copy
shares it, but for the new nodes at the positions that a path passes. -/
theorem Store.copy_contents (hsound : st.Sound [v]) (keepClass : Bool) (paths : List KeyPath) :
    st.Extends (st.copy keepClass v paths).2.store ∧
      st.CopyOf (st.copy keepClass v paths).2.store keepClass paths [] v
        (st.copy keepClass v paths).1 := by
  have hv : st.Within [v] v := within_of_mem List.mem_cons_self
  refine ⟨(st.copy_adds hsound keepClass hv paths).ext, ?_⟩
  exact (KeyTree.copy_copyOf hsound keepClass paths).1 [] v (.ofPaths paths) ⟨st, []⟩ hv
    (grown_refl st [v]) (KeyTree.regular_ofPaths paths) (KeyTree.isAt_ofPaths paths)

def parcel : Class := ⟨"Parcel", some [("name", .scalar (.text "none")), ("tags", .list [])]⟩

/-- An instance of the class without tags; it has a name, and a map of two entries. -/
def depot : Store :=
  ⟨#[⟨true, .map (.ofList [("k", .text "gone"), ("l", .text "kept")])⟩,
    ⟨true, .record (some parcel) (.ofList [("stock", .node ⟨0⟩), ("name", .text "own")])⟩]⟩

def depotPaths : List KeyPath := [⟨["stock", "k"], .mapDelete⟩]

/-- The copy of the instance has the constructor's fields first, and its map lacks an entry. -/
theorem copy_contents_depot :
    depot.CopyOf (depot.copy true (.node ⟨1⟩) depotPaths).2.store true depotPaths []
      (.node ⟨1⟩) (.node ⟨4⟩) ∧
    ((depot.copy true (.node ⟨1⟩) depotPaths).2.store.body ⟨4⟩).shape =
      .record (some parcel) ["name", "tags", "stock"] ∧
    ((depot.copy true (.node ⟨1⟩) depotPaths).2.store.body ⟨3⟩).shape = .map ["l"] := by
  have hsound : depot.Sound [.node ⟨1⟩] := Store.Layered.sound (by decide) (by decide)
  exact ⟨(Store.copy_contents hsound true depotPaths).2, rfl, rfl⟩

end Copy

end PathCopy
