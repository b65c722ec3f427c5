import PathCopy.Proofs.CopySteps
import PathCopy.Proofs.Depth

/-!
Path copies. A copy only adds nodes to the store, and they are made of the copied value, of values
that a class builds and of each other.
-/

namespace PathCopy

/-! ### What the containers of a copy hold -/

namespace Table

variable {α : Type} {t : Table α} {a : α} {es : List (String × α)}

theorem insertAll_cons (t : Table α) (e : String × α) (es : List (String × α)) :
    t.insertAll (e :: es) = (t.insert e.1 e.2).insertAll es := rfl

theorem mem_values_insertAll (h : a ∈ (t.insertAll es).values) :
    a ∈ t.values ∨ a ∈ es.map Prod.snd := by
  induction es generalizing t with
  | nil => exact .inl h
  | cons e es ih =>
      rcases ih h with h | h
      · rcases mem_values_insert h with rfl | h
        · exact .inr List.mem_cons_self
        · exact .inl h
      · exact .inr (List.mem_cons_of_mem _ h)

theorem mem_values_ofList (h : a ∈ (ofList es).values) : a ∈ es.map Prod.snd :=
  (mem_values_insertAll h).resolve_left nofun

end Table

theorem mem_values_eraseKeys {t : Table Value} {keys : List String} {v : Value}
    (h : v ∈ (eraseKeys t keys).values) : v ∈ t.values := by
  induction keys generalizing t with
  | nil => exact h
  | cons key keys ih => exact Table.mem_values_erase (ih h)

theorem setItems_cons (items : List Value) (key : String) (v : Value)
    (new : List (String × Value)) :
    setItems items ((key, v) :: new) =
      setItems (match Number.readIndex? key with
        | some i => items.set i v
        | none => items) new := rfl

theorem mem_setItems {items : List Value} {new : List (String × Value)} {v : Value}
    (h : v ∈ setItems items new) : v ∈ items ∨ v ∈ new.map Prod.snd := by
  induction new generalizing items with
  | nil => exact .inl h
  | cons e new ih =>
      obtain ⟨key, u⟩ := e
      rw [setItems_cons] at h
      rw [List.map_cons]
      rcases ih h with hitem | hnew
      · split at hitem
        · rcases List.mem_or_eq_of_mem_set hitem with hitem | rfl
          · exact .inl hitem
          · exact .inr List.mem_cons_self
        · exact .inl hitem
      · exact .inr (List.mem_cons_of_mem _ hnew)

theorem Body.mem_children_fill {body : Body} {new : List (String × Value)} {v : Value}
    (h : v ∈ (body.fill new).children) : v ∈ body.children ∨ v ∈ new.map Prod.snd := by
  cases body with
  | date ms => cases h
  | list items => exact mem_setItems h
  | map entries => exact Table.mem_values_insertAll h
  | record cls fields => exact Table.mem_values_insertAll h

/-- The fields that the constructor of a record's class gives, if a copy keeps the class. -/
def keptDefaults (keepClass : Bool) (cls : Option Class) : Option (List (String × Template)) :=
  if keepClass then cls.bind Class.defaults else none

/-- What a record's copy starts from: its own fields on top of those that its class builds, or its
own fields alone. -/
theorem Copying.recordBase_eq (c : Copying) (keepClass : Bool) (cls : Option Class)
    (fields : Table Value) :
    c.recordBase keepClass cls fields =
      match keptDefaults keepClass cls with
      | some es => (cls,
          (Table.ofList (Template.buildEntries es c.store).1).insertAll fields.entries,
          { c with store := (Template.buildEntries es c.store).2 })
      | none => (none, fields, c) := by
  cases keepClass with
  | false => rfl
  | true =>
      cases cls with
      | none => rfl
      | some k => cases hdefaults : k.defaults <;>
          simp [recordBase, keptDefaults, Class.construct?, hdefaults]

/-! ### Templates -/

namespace Template

/-- A template has a property if it follows from that of its parts. -/
theorem induct {P : Template → Prop} (scalar : ∀ a, P (.scalar a)) (date : ∀ ms, P (.date ms))
    (list : ∀ ts, (∀ t ∈ ts, P t) → P (.list ts))
    (map : ∀ es, (∀ e ∈ es, P e.2) → P (.map es))
    (ofClass : ∀ cls es, (∀ e ∈ es, P e.2) → P (.ofClass cls es)) (t : Template) : P t :=
  -- What a class would give to its own instances is no part of the template.
  @Template.rec P (fun _ => True) (fun ts => ∀ t ∈ ts, P t) (fun es => ∀ e ∈ es, P e.2)
    (fun _ => True) (fun _ => True) (fun e => P e.2) scalar date list map
    (fun cls es _ hes => ofClass cls es hes) (fun _ _ _ => trivial) nofun
    (fun _ _ ht hts => List.forall_mem_cons.mpr ⟨ht, hts⟩) nofun
    (fun _ _ he hes => List.forall_mem_cons.mpr ⟨he, hes⟩) trivial (fun _ _ => trivial) trivial
    (fun _ _ => trivial) (fun _ _ ht => ht) t

theorem length_buildList (ts : List Template) (st : Store) :
    (buildList ts st).1.length = ts.length := by
  induction ts generalizing st with
  | nil => rfl
  | cons t ts ih => exact congrArg Nat.succ (ih _)

theorem buildEntries_eq (es : List (String × Template)) (st : Store) :
    buildEntries es st = ((es.map Prod.fst).zip (buildList (es.map Prod.snd) st).1,
      (buildList (es.map Prod.snd) st).2) := by
  induction es generalizing st with
  | nil => rfl
  | cons e es ih =>
      rw [buildEntries, List.map_cons, List.map_cons, buildList]
      dsimp only
      rw [ih]
      rfl

theorem values_buildEntries (es : List (String × Template)) (st : Store) :
    (buildEntries es st).1.map Prod.snd = (buildList (es.map Prod.snd) st).1 := by
  rw [buildEntries_eq]
  exact List.map_snd_zip (by simp [length_buildList])

end Template

/-! ### Growth -/

section Growth

variable {st : Store} {roots : List Value}

/-- What building adds to a store that has grown: it grows on, and what is built is available. -/
structure Store.Adds (st : Store) (roots : List Value) (st₁ st₂ : Store) (vs : List Value) :
    Prop where
  grown : st.Grown roots st₂
  ext : st₁.Extends st₂
  available : ∀ v ∈ vs, st.Available roots st₂ v
  founded : (∀ u ∈ roots, st.Founded u) → ∀ v ∈ vs, st₂.Founded v

open Store

namespace Store.Adds

variable {st₁ st₂ st₃ : Store} {vs ws : List Value} {body : Body}

theorem none (h : st.Grown roots st₁) : st.Adds roots st₁ st₁ [] :=
  ⟨h, extends_refl st₁, nofun, fun _ => nofun⟩

theorem old (hsound : st.Sound roots) (h : st.Grown roots st₁)
    (hvs : ∀ v ∈ vs, st.Within roots v) : st.Adds roots st₁ st₁ vs where
  grown := h
  ext := extends_refl st₁
  available v hv := available_of_within (hvs v hv)
  founded hroots v hv :=
    (hsound.agreeBelow h.toExtends (hvs v hv)).founded ((hvs v hv).founded hroots)

theorem subset (h : st.Adds roots st₁ st₂ vs) (hws : ws ⊆ vs) : st.Adds roots st₁ st₂ ws :=
  ⟨h.grown, h.ext, fun v hv => h.available v (hws hv), fun hroots v hv =>
    h.founded hroots v (hws hv)⟩

theorem append (hsound : st.Sound roots) (h : st.Adds roots st₁ st₂ vs)
    (h' : st.Adds roots st₂ st₃ ws) : st.Adds roots st₁ st₃ (vs ++ ws) where
  grown := h'.grown
  ext := h.ext.trans h'.ext
  available v hv := by
    rcases List.mem_append.mp hv with hv | hv
    · exact (h.available v hv).mono h'.ext.size_le
    · exact h'.available v hv
  founded hroots v hv := by
    rcases List.mem_append.mp hv with hv | hv
    · exact (h.grown.agreeBelow hsound (h.available v hv) h'.ext).founded (h.founded hroots v hv)
    · exact h'.founded hroots v hv

theorem alloc (hsound : st.Sound roots) (h : st.Adds roots st₁ st₂ vs)
    (hbody : ∀ c ∈ body.children, st.Within roots c ∨ c ∈ vs) :
    st.Adds roots st₁ (st₂.alloc body).2 [(st₂.alloc body).1] := by
  have hchildren : ∀ c ∈ body.children, st.Available roots st₂ c := fun c hc =>
    (hbody c hc).elim available_of_within (h.available c)
  have hgrown := h.grown.alloc hchildren
  refine ⟨hgrown.1, h.ext.trans (extends_alloc st₂ body), List.forall_mem_singleton.mpr hgrown.2,
    fun hroots => List.forall_mem_singleton.mpr ?_⟩
  refine founded_alloc (fun c hc => ?_) fun c hc => ?_
  · exact h.grown.agreeBelow hsound (hchildren c hc) (extends_alloc st₂ body)
  · rcases hbody c hc with hold | hnew
    · exact (hsound.agreeBelow h.grown.toExtends hold).founded (hold.founded hroots)
    · exact h.founded hroots c hnew

end Store.Adds

namespace Template

def AddsTo (st : Store) (roots : List Value) (t : Template) : Prop :=
  ∀ st₁ : Store, st.Grown roots st₁ → st.Adds roots st₁ (t.build st₁).2 [(t.build st₁).1]

theorem buildList_adds (hsound : st.Sound roots) {ts : List Template}
    (h : ∀ t ∈ ts, t.AddsTo st roots) {st₁ : Store} (hgrown : st.Grown roots st₁) :
    st.Adds roots st₁ (buildList ts st₁).2 (buildList ts st₁).1 := by
  induction ts generalizing st₁ with
  | nil => exact .none hgrown
  | cons t ts ih =>
      obtain ⟨ht, hts⟩ := List.forall_mem_cons.mp h
      have hhead := ht st₁ hgrown
      exact hhead.append hsound (ih hts hhead.grown)

theorem buildEntries_adds (hsound : st.Sound roots) {es : List (String × Template)}
    (h : ∀ e ∈ es, e.2.AddsTo st roots) {st₁ : Store} (hgrown : st.Grown roots st₁) :
    st.Adds roots st₁ (buildEntries es st₁).2 ((buildEntries es st₁).1.map Prod.snd) := by
  rw [values_buildEntries, buildEntries_eq]
  exact buildList_adds hsound (List.forall_mem_map.mpr h) hgrown

theorem build_adds (hsound : st.Sound roots) (t : Template) : t.AddsTo st roots := by
  induction t using induct with
  | scalar a =>
      exact fun st₁ h => .old hsound h (List.forall_mem_singleton.mpr (within_scalar a))
  | date ms => exact fun st₁ h => (Adds.none h).alloc hsound nofun
  | list ts ih => exact fun st₁ h => (buildList_adds hsound ih h).alloc hsound fun c hc => .inr hc
  | map es ih =>
      exact fun st₁ h => (buildEntries_adds hsound ih h).alloc hsound fun c hc =>
        .inr (Table.mem_values_ofList hc)
  | ofClass cls es ih =>
      exact fun st₁ h => (buildEntries_adds hsound ih h).alloc hsound fun c hc =>
        .inr (Table.mem_values_ofList hc)

end Template

/-- The first contents of a copy are made of the copied ones and of what a class builds. -/
theorem Copying.base_adds (hsound : st.Sound roots) {c : Copying} (hc : st.Grown roots c.store)
    (keepClass : Bool) (dropped : List String) {body : Body}
    (hbody : ∀ v ∈ body.children, st.Within roots v) :
    st.Adds roots c.store (c.base keepClass dropped body).2.store
      (c.base keepClass dropped body).1.children := by
  cases body with
  | date ms => exact .none hc
  | list items => exact .old hsound hc hbody
  | map entries => exact .old hsound hc fun v hv => hbody v (mem_values_eraseKeys hv)
  | record cls fields =>
      rw [base, recordBase_eq]
      split
      · next es _ =>
        have hbuilt := Template.buildEntries_adds hsound
          (fun e (_ : e ∈ es) => e.2.build_adds hsound) hc
        refine (hbuilt.append hsound (.old hsound hbuilt.grown hbody)).subset fun v hv => ?_
        rw [List.mem_append]
        exact (Table.mem_values_insertAll hv).imp Table.mem_values_ofList id
      · exact .old hsound hc hbody

/-- The children of a node within the roots are what they were before the copy. -/
theorem Store.Grown.children_within (hsound : st.Sound roots) {r : Ref} {st₁ : Store}
    (h : st.Grown roots st₁) (hr : st.Within roots (.node r)) :
    st₁.body r = st.body r ∧ ∀ v ∈ (st.body r).children, st.Within roots v :=
  ⟨h.body_eq (hsound r (within_node_iff.mp hr)), fun _ hv =>
    hr.reaches (reaches_of_mem_children hv)⟩

theorem KeyTree.copy_adds (hsound : st.Sound roots) (keepClass : Bool) :
    (∀ (trail : List String) (v : Value) (tree : KeyTree) (c : Copying),
      st.Within roots v → st.Grown roots c.store →
      st.Adds roots c.store (tree.copy keepClass trail v c).2.store
        [(tree.copy keepClass trail v c).1]) ∧
    ∀ (trail : List String) (body : Body) (branches : KeyBranches) (c : Copying),
      (∀ v ∈ body.children, st.Within roots v) → st.Grown roots c.store →
      st.Adds roots c.store (branches.copyChildren keepClass trail body c).2.store
        ((branches.copyChildren keepClass trail body c).1.map Prod.snd) := by
  refine KeyTree.copy_steps keepClass
    (P := fun _ v _ c x => st.Within roots v → st.Grown roots c.store →
      st.Adds roots c.store x.2.store [x.1])
    (Q := fun _ body _ c x => (∀ v ∈ body.children, st.Within roots v) →
      st.Grown roots c.store → st.Adds roots c.store x.2.store (x.1.map Prod.snd))
    ?shared ?scalar ?date ?container ?none ?leaf ?absent ?child
  case shared => exact fun _ v _ c _ hv hc => .old hsound hc (List.forall_mem_singleton.mpr hv)
  case scalar => exact fun _ a _ _ c _ hv hc => .old hsound hc (List.forall_mem_singleton.mpr hv)
  case date => exact fun _ r ms _ _ c _ _ _ hc => (Adds.none hc).alloc hsound nofun
  case container =>
    intro trail r ends branches c first c₁ new c₂ hcopy ih hr hc
    obtain ⟨hbody, hchildren⟩ := hc.children_within hsound hr
    rw [← hbody] at hchildren
    have hfirst := Copying.base_adds hsound hc keepClass branches.dropped hchildren
    rw [hcopy.base] at hfirst
    refine (hfirst.append hsound (ih hchildren hfirst.grown)).alloc hsound fun u hu => .inr ?_
    exact List.mem_append.mpr (Body.mem_children_fill hu)
  case none => exact fun _ _ _ _ hc => .none hc
  case leaf => exact fun _ _ _ _ _ _ ih hv hc => ih hv hc
  case absent => rintro trail body key tree rest c _ _ _ rfl ih hv hc; exact ih hv hc
  case child =>
    intro trail body key tree rest c w w' c₁ new c₂ hcopy ih ihrest hv hc
    have hfirst := ih (hv w (Body.mem_children_of_child? hcopy.child)) hc
    exact hfirst.append hsound (ihrest hv hfirst.grown)

/-- The copy of a container within the roots, with what its steps add to the store. -/
structure Store.CopiesNode (st : Store) (roots : List Value) (keepClass : Bool)
    (trail : List String) (r : Ref) (branches : KeyBranches) (c : Copying) (first : Body)
    (c₁ : Copying) (new : List (String × Value)) (c₂ : Copying) : Prop
    extends ContainerCopy keepClass trail branches (st.body r) c first c₁ new c₂ where
  within : st.Within roots (.node r)
  grown : st.Grown roots c.store
  begins : st.Adds roots c.store c₁.store first.children
  adds : st.Adds roots c₁.store c₂.store (new.map Prod.snd)

/-- The copy of a child within the roots, and of those after it, with what they add. -/
structure Store.CopiesChild (st : Store) (roots : List Value) (keepClass : Bool)
    (trail : List String) (key : String) (tree : KeyTree) (rest : KeyBranches) (body : Body)
    (c : Copying) (w w' : Value) (c₁ : Copying) (new : List (String × Value)) (c₂ : Copying) : Prop
    extends ChildCopy keepClass trail key tree rest body c w w' c₁ new c₂ where
  within : ∀ v ∈ body.children, st.Within roots v
  grown : st.Grown roots c.store
  begins : st.Adds roots c.store c₁.store [w']
  adds : st.Adds roots c₁.store c₂.store (new.map Prod.snd)

/-- The induction over the copy of a value from within the roots. The nodes that are copied are
those of the store before the copy, although the store grows with every step. -/
theorem KeyTree.copy_induct (hsound : st.Sound roots) (keepClass : Bool)
    {P : List String → Value → KeyTree → Copying → Value × Copying → Prop}
    {Q : List String → Body → KeyBranches → Copying → List (String × Value) × Copying → Prop}
    (shared : ∀ trail v tree c, tree.isLeaf → st.Within roots v → st.Grown roots c.store →
      P trail v tree c (v, c))
    (scalar : ∀ trail a ends branches c, branches ≠ .nil →
      P trail (.scalar a) (.node ends branches) c (.scalar a, c.warn (.pastScalar trail a.kind)))
    (date : ∀ trail r ms ends branches c, branches ≠ .nil → st.body r = .date ms →
      st.Grown roots c.store → P trail (.node r) (.node ends branches) c (c.alloc (.date ms)))
    (container : ∀ trail r ends branches c first c₁ new c₂,
      st.CopiesNode roots keepClass trail r branches c first c₁ new c₂ →
      Q trail (st.body r) branches c₁ (new, c₂) →
      P trail (.node r) (.node ends branches) c (c₂.alloc (first.fill new)))
    (none : ∀ trail body c, Q trail body .nil c ([], c))
    (leaf : ∀ trail body key ends rest c, (∀ v ∈ body.children, st.Within roots v) →
      st.Grown roots c.store → Q trail body rest c (rest.copyChildren keepClass trail body c) →
      Q trail body (.cons key (.node ends .nil) rest) c (rest.copyChildren keepClass trail body c))
    (absent : ∀ trail body key tree rest c c', tree.isLeaf = false →
      body.child? key = Option.none → c.warn (.absentKey trail key) = c' →
      (∀ v ∈ body.children, st.Within roots v) → st.Grown roots c'.store →
      Q trail body rest c' (rest.copyChildren keepClass trail body c') →
      Q trail body (.cons key tree rest) c (rest.copyChildren keepClass trail body c'))
    (child : ∀ trail body key tree rest c w w' c₁ new c₂,
      st.CopiesChild roots keepClass trail key tree rest body c w w' c₁ new c₂ →
      P (trail ++ [key]) w tree c (w', c₁) → Q trail body rest c₁ (new, c₂) →
      Q trail body (.cons key tree rest) c ((key, w') :: new, c₂)) :
    (∀ trail v tree c, st.Within roots v → st.Grown roots c.store →
      P trail v tree c (tree.copy keepClass trail v c)) ∧
    ∀ trail body branches c, (∀ v ∈ body.children, st.Within roots v) → st.Grown roots c.store →
      Q trail body branches c (branches.copyChildren keepClass trail body c) := by
  -- Every store on the way has the nodes within the roots as they were.
  have hadds := KeyTree.copy_adds hsound keepClass
  refine KeyTree.copy_steps keepClass
    (P := fun trail v tree c x => st.Within roots v → st.Grown roots c.store → P trail v tree c x)
    (Q := fun trail body branches c x => (∀ v ∈ body.children, st.Within roots v) →
      st.Grown roots c.store → Q trail body branches c x)
    shared (fun trail a ends branches c hne _ _ => scalar trail a ends branches c hne)
    (fun trail r ms ends branches c hne hr hv hc => ?_) ?_ (fun trail body c _ _ => none trail body c)
    (fun trail body key ends rest c ih hv hc => leaf trail body key ends rest c hv hc (ih hv hc))
    ?_ ?_
  · rw [(hc.children_within hsound hv).1] at hr
    exact date trail r ms ends branches c hne hr hc
  · intro trail r ends branches c first c₁ new c₂ hcopy ih hr hc
    obtain ⟨hbody, hchildren⟩ := hc.children_within hsound hr
    rw [hbody] at hcopy ih
    have hfirst := Copying.base_adds hsound hc keepClass branches.dropped hchildren
    rw [hcopy.base] at hfirst
    have hnew := hadds.2 trail (st.body r) branches c₁ hchildren hfirst.grown
    rw [hcopy.children] at hnew
    exact container trail r ends branches c first c₁ new c₂ ⟨hcopy, hr, hc, hfirst, hnew⟩
      (ih hchildren hfirst.grown)
  · rintro trail body key tree rest c _ hleaf hchild rfl ih hv hc
    exact absent trail body key tree rest c _ hleaf hchild rfl hv hc (ih hv hc)
  · intro trail body key tree rest c w w' c₁ new c₂ hcopy ih ihrest hv hc
    have hw := hv w (Body.mem_children_of_child? hcopy.child)
    have hfirst := hadds.1 (trail ++ [key]) w tree c hw hc
    rw [hcopy.first] at hfirst
    have hothers := hadds.2 trail body rest c₁ hv hfirst.grown
    rw [hcopy.others] at hothers
    exact child trail body key tree rest c w w' c₁ new c₂ ⟨hcopy, hv, hc, hfirst, hothers⟩
      (ih hw hc) (ihrest hv hfirst.grown)

theorem Store.copy_adds (hsound : st.Sound roots) (keepClass : Bool) {v : Value}
    (hv : st.Within roots v) (paths : List KeyPath) :
    st.Adds roots st (st.copy keepClass v paths).2.store [(st.copy keepClass v paths).1] :=
  (KeyTree.copy_adds hsound keepClass).1 [] v (.ofPaths paths) ⟨st, []⟩ hv (grown_refl st roots)

end Growth

end PathCopy
