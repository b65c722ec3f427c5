import PathCopy.Proofs.Positions
import PathCopy.Proofs.Thinning

/-!
Faithful copies. A path copy of a value without instances of classes is the same tree as the value,
but for the map entries that the copy leaves out. So if a template describes the value, then the
template without these entries describes the copy.
-/

namespace PathCopy

open Store

/-! ### Containers with new children -/

section Containers

theorem keys_putEntry_of_mem {α : Type} {k : String} {a : α} {es : List (String × α)}
    (h : k ∈ es.map Prod.fst) : (putEntry k a es).map Prod.fst = es.map Prod.fst := by
  induction es with
  | nil => cases h
  | cons e es ih =>
      rw [putEntry]
      split
      · next hk => rw [List.map_cons, List.map_cons, hk]
      · next hk =>
        rw [List.map_cons, List.map_cons, ih]
        exact (List.mem_cons.mp h).resolve_left fun he => hk he.symm

theorem Table.keys_insertAll {α : Type} {t : Table α} {new : List (String × α)}
    (h : ∀ k ∈ new.map Prod.fst, k ∈ t.keys) : (t.insertAll new).keys = t.keys := by
  induction new generalizing t with
  | nil => rfl
  | cons e new ih =>
      obtain ⟨hfirst, hrest⟩ := List.forall_mem_cons.mp h
      have hkeys : (t.insert e.1 e.2).keys = t.keys := keys_putEntry_of_mem hfirst
      rw [Table.insertAll_cons, ih (hkeys.symm ▸ hrest), hkeys]

theorem keys_eraseKeys (t : Table Value) (keys : List String) :
    (eraseKeys t keys).keys = t.keys.filter (· ∉ keys) := by
  induction keys generalizing t with
  | nil => simp [eraseKeys]
  | cons key keys ih =>
      have hstep : eraseKeys t (key :: keys) = eraseKeys (t.erase key) keys := rfl
      have hkeys : (t.erase key).keys = t.keys.filter (· ≠ key) := by
        simp [Table.keys, Table.erase, List.filter_map, Function.comp_def]
      rw [hstep, ih, hkeys, List.filter_filter]
      exact List.filter_congr fun k _ => by simp [Bool.and_comm]

theorem getElem?_setItems_of_ne {items : List Value} {new : List (String × Value)} {i : ℕ}
    (h : ∀ k ∈ new.map Prod.fst, Number.readIndex? k ≠ some i) :
    (setItems items new)[i]? = items[i]? := by
  induction new generalizing items with
  | nil => rfl
  | cons e new ih =>
      obtain ⟨hfirst, hrest⟩ := List.forall_mem_cons.mp h
      obtain ⟨key, u⟩ := e
      rw [setItems_cons, ih hrest]
      split
      · next j hj => exact List.getElem?_set_ne fun hji => hfirst (by rw [hj, hji])
      · rfl

theorem length_setItems (items : List Value) (new : List (String × Value)) :
    (setItems items new).length = items.length := by
  induction new generalizing items with
  | nil => rfl
  | cons e new ih =>
      obtain ⟨key, u⟩ := e
      rw [setItems_cons, ih]
      split
      · rw [List.length_set]
      · rfl

end Containers

/-! ### The copy -/

theorem KeyTree.thin_leaf {tree : KeyTree} (h : tree.isLeaf) (t : Template) :
    t.thin tree.Removes = t :=
  Template.thin_eq_self fun _ _ hremoves => not_holds_leaf h hremoves.1

section Copy

variable {st st' st'' : Store} {roots : List Value} {branches : KeyBranches} {ends : List Effect}
  {body : Body} {new : List (String × Value)}

/-- The copies of the children that a path passes through: what describes a child describes its
copy, without what the branch leaves out. -/
def Faithful (branches : KeyBranches) (st st' : Store) (body : Body) (new : List (String × Value)) :
    Prop :=
  ∀ k u, (k, u) ∈ new → ∃ c, body.child? k = some c ∧
    ∀ t : Template, t.Describes st c → (t.thin (branches.under k).Removes).Describes st' u

theorem Faithful.mono (h : Faithful branches st st' body new)
    (hagree : ∀ v ∈ new.map Prod.snd, st'.AgreeBelow st'' v) :
    Faithful branches st st'' body new := by
  intro k u hu
  obtain ⟨c, hc, hcopy⟩ := h k u hu
  exact ⟨c, hc, fun t ht => (hcopy t ht).agree (hagree u (List.mem_map_of_mem hu))⟩

/-- The child of the new container is the copy, or else the child itself, which no path passes. -/
theorem Faithful.describes (h : Faithful branches st st' body new)
    (hcopied : ∀ {k c}, body.child? k = some c → (branches.under k).isLeaf = false →
      k ∈ new.map Prod.fst)
    (hagree : ∀ c ∈ body.children, st.AgreeBelow st' c) {t : Template} {k : String} {c w : Value}
    (hc : body.child? k = some c) (ht : t.Describes st c)
    (hw : (k, w) ∈ new ∨ k ∉ new.map Prod.fst ∧ w = c) :
    (t.thin (branches.under k).Removes).Describes st' w := by
  rcases hw with hw | ⟨hnot, rfl⟩
  · obtain ⟨c', hc', hcopy⟩ := h k w hw
    rw [hc] at hc'
    cases hc'
    exact hcopy t ht
  · have hleaf : (branches.under k).isLeaf := by
      by_contra hpass
      exact hnot (hcopied hc (eq_false_of_ne_true hpass))
    rw [KeyTree.thin_leaf hleaf]
    exact ht.agree (hagree _ (Body.mem_children_of_child? hc))

theorem Faithful.list {ts : List Template} {items : List Value}
    (h : Faithful branches st st' (.list items) new)
    (hcopied : ∀ {k c}, (Body.list items).child? k = some c → (branches.under k).isLeaf = false →
      k ∈ new.map Prod.fst)
    (hagree : ∀ c ∈ items, st.AgreeBelow st' c) (hts : Template.DescribesList st ts items) :
    Template.DescribesList st' (Template.thinItems (KeyTree.node ends branches).Removes 0 ts)
      (setItems items new) := by
  rw [Template.describesList_iff_getElem?] at hts ⊢
  refine ⟨by rw [Template.length_thinItems, length_setItems, hts.1], fun i t v ht hv => ?_⟩
  have hlt : i < items.length := by
    rw [← length_setItems items new]
    exact (List.getElem?_eq_some_iff.mp hv).1
  obtain ⟨c, hc⟩ : ∃ c, items[i]? = some c := ⟨_, List.getElem?_eq_getElem hlt⟩
  by_cases hkey : ∃ k, Number.readIndex? k = some i
  · obtain ⟨k, hk⟩ := hkey
    have hchild : (Body.list items).child? k = some c := by
      rw [Body.child?, hk, Option.bind_some, hc]
    rw [Template.getElem?_thinItems hk, Option.map_eq_some_iff] at ht
    obtain ⟨t, ht, rfl⟩ := ht
    refine h.describes hcopied hagree hchild (hts.2 i t c ht hc) ?_
    by_cases hmem : k ∈ new.map Prod.fst
    · obtain ⟨u, hu, hset⟩ := getElem?_setItems_of_mem hk hlt hmem
      rw [hv] at hset
      cases hset
      exact .inl hu
    · refine .inr ⟨hmem, ?_⟩
      rw [getElem?_setItems_of_ne, hc] at hv
      · exact (Option.some.inj hv).symm
      · exact fun l hl hli => hmem (Number.readIndex?_inj hli hk ▸ hl)
  · -- No key leads to the item, so it is shared, and nothing below it is left out.
    rw [Template.thinItems_eq_mapIdx, List.getElem?_mapIdx, Option.map_eq_some_iff] at ht
    obtain ⟨t, ht, rfl⟩ := ht
    rw [getElem?_setItems_of_ne fun k _ hk => hkey ⟨k, hk⟩] at hv
    rw [Template.thin_eq_self]
    · exact (hts.2 i t v ht hv).agree (hagree v (List.mem_of_getElem? hv))
    · rintro k q ⟨l, hl, -⟩
      exact hkey ⟨l, by rwa [Nat.zero_add] at hl⟩

theorem Faithful.table {es : List (String × Template)} {table base : Table Value}
    {D : String → Prop}
    (h : Faithful branches st st' body new)
    (hcopied : ∀ {k c}, body.child? k = some c → (branches.under k).isLeaf = false →
      k ∈ new.map Prod.fst)
    (hagree : ∀ c ∈ body.children, st.AgreeBelow st' c)
    (hbody : ∀ k, body.child? k = table.get? k)
    (hkeys : base.keys = open Classical in table.keys.filter fun k => ¬ D k)
    (hbase : ∀ k, ¬ D k → base.get? k = table.get? k) (hnew : ∀ k ∈ new.map Prod.fst, ¬ D k)
    (hes : Template.DescribesEntries st es table.entries) :
    Template.DescribesEntries st'
      (Template.thinEntries (KeyTree.node ends branches).Removes D es)
      (base.insertAll new).entries := by
  rw [Template.describesEntries_iff_get?] at hes ⊢
  -- The copied children replace entries that are there, so the order of the keys stays.
  have hmem : ∀ k ∈ new.map Prod.fst, k ∈ base.keys := by
    intro k hk
    obtain ⟨⟨key, u⟩, hu, rfl⟩ := List.mem_map.mp hk
    obtain ⟨c, hc, -⟩ := h key u hu
    rw [hbody] at hc
    rw [hkeys, List.mem_filter]
    exact ⟨isSome_findEntry_iff.mp (Option.isSome_of_eq_some hc), by simpa using hnew key hk⟩
  constructor
  · rw [Table.keys_insertAll hmem, hkeys, hes.1, Template.keys_thinEntries]
  · intro k t v ht hv
    rw [Template.findEntry_thinEntries] at ht
    split at ht
    · cases ht
    · next hD =>
      obtain ⟨t', ht', rfl⟩ := Option.map_eq_some_iff.mp ht
      obtain ⟨c, hc⟩ : ∃ c, table.get? k = some c := by
        refine Option.isSome_iff_exists.mp (isSome_findEntry_iff.mpr ?_)
        rw [← Table.keys, hes.1]
        exact isSome_findEntry_iff.mp (Option.isSome_of_eq_some ht')
      refine h.describes hcopied hagree ((hbody k).trans hc) (hes.2 k t' c ht' hc) ?_
      by_cases hk : k ∈ new.map Prod.fst
      · obtain ⟨u, hu, hget⟩ := Table.get?_insertAll_of_mem (t := base) hk
        rw [hv] at hget
        cases hget
        exact .inl hu
      · rw [Table.get?_insertAll_of_notMem hk, hbase k hD, hc] at hv
        exact .inr ⟨hk, (Option.some.inj hv).symm⟩

theorem Faithful.skip {key : String} {tree : KeyTree} {rest : KeyBranches}
    (h : Faithful rest st st' body new) (hlays : rest.Lays st body st' new)
    (hkey : rest.find? key = none) : Faithful (.cons key tree rest) st st' body new := by
  intro k u hu
  rw [KeyBranches.under_cons, if_neg (hlays.key_ne hkey hu)]
  exact h k u hu

theorem Faithful.cons {key : String} {tree : KeyTree} {rest : KeyBranches} {c u : Value}
    (h : Faithful rest st st' body new) (hlays : rest.Lays st body st' new)
    (hkey : rest.find? key = none) (hc : body.child? key = some c)
    (hu : ∀ t : Template, t.Describes st c → (t.thin tree.Removes).Describes st' u) :
    Faithful (.cons key tree rest) st st' body ((key, u) :: new) := by
  intro k w hw
  rcases List.mem_cons.mp hw with heq | hw
  · cases heq
    rw [KeyBranches.under_cons, if_pos rfl]
    exact ⟨c, hc, hu⟩
  · exact h.skip hlays hkey k w hw

theorem KeyTree.describes_container (hsound : st.Sound roots) {keepClass : Bool}
    {trail : List String} {r : Ref} {first : Body} {c c₁ c₂ : Copying}
    (h : st.CopiesNode roots keepClass trail r branches c first c₁ new c₂)
    (hregular : branches.Regular) (hclass : st.ClassFree (.node r))
    (hlays : branches.Lays st (st.body r) c₂.store new)
    (hnew : Faithful branches st c₂.store (st.body r) new) {t : Template}
    (ht : t.Describes st (.node r)) :
    (t.thin (KeyTree.node ends branches).Removes).Describes (c₂.store.alloc (first.fill new)).2
      (c₂.store.alloc (first.fill new)).1 := by
  have hext := extends_alloc c₂.store (first.fill new)
  have hchildren := (h.grown.children_within hsound h.within).2
  -- What the new container is made of is the same before it is made and after it.
  have hagree : ∀ c ∈ (st.body r).children, st.AgreeBelow (c₂.store.alloc (first.fill new)).2 c :=
    fun c hc => hsound.agreeBelow (h.adds.grown.toExtends.trans hext) (hchildren c hc)
  have hfaithful := hnew.mono fun v hv =>
    h.adds.grown.agreeBelow hsound (h.adds.available v hv) hext
  have hremoves : ∀ k, (KeyTree.node ends branches).Removes [k] ↔ k ∈ branches.dropped :=
    fun k => hregular.mem_dropped_iff.symm
  have hkind := h.kind
  have hfirst := h.base
  have hcopied := @hlays.copied
  have hinv := ht.node_inv
  have hkept : ∀ k ∈ new.map Prod.fst, k ∉ branches.dropped := fun k hk =>
    hlays.notMem_dropped hregular hk
  cases hbody : st.body r with
  | date ms => exact absurd (congrArg Body.kind hbody) hkind
  | list items =>
      rw [hbody] at hinv hfirst hagree hfaithful hcopied
      obtain ⟨ts, rfl, hts⟩ := hinv
      cases hfirst
      exact ⟨_, _, rfl, body_alloc_self _ _, hfaithful.list hcopied hagree hts⟩
  | map entries =>
      rw [hbody] at hinv hfirst hagree hfaithful hcopied
      obtain ⟨es, rfl, hes⟩ := hinv
      cases hfirst
      refine ⟨_, _, rfl, body_alloc_self _ _, hfaithful.table hcopied hagree (fun _ => rfl)
        ?_ (fun k hk => get?_eraseKeys (mt (hremoves k).mpr hk)) ?_ hes⟩
      · rw [keys_eraseKeys]
        exact List.filter_congr fun k _ => by simp [hremoves]
      · exact fun k hk => mt (hremoves k).mp (hkept k hk)
  | record cls fields =>
      -- Without a class the copy starts from the record's own fields.
      obtain rfl := hclass r cls fields (reaches_refl st _) hbody
      have hplain : c.recordBase keepClass none fields = (none, fields, c) := by
        cases keepClass <;> rfl
      rw [hbody] at hinv hfirst hagree hfaithful hcopied
      rw [Copying.base, hplain] at hfirst
      obtain ⟨es, rfl, hes⟩ := hinv
      cases hfirst
      exact ⟨_, _, rfl, body_alloc_self _ _, hfaithful.table hcopied hagree (fun _ => rfl)
        (by simp) (fun _ _ => rfl) (fun _ _ => id) hes⟩

theorem KeyTree.copy_describes (hsound : st.Sound roots) (keepClass : Bool) :
    (∀ (trail : List String) (v : Value) (tree : KeyTree) (c : Copying),
      st.Within roots v → st.Grown roots c.store → tree.Regular → st.ClassFree v →
      ∀ t : Template, t.Describes st v → (t.thin tree.Removes).Describes
        (tree.copy keepClass trail v c).2.store (tree.copy keepClass trail v c).1) ∧
    ∀ (trail : List String) (body : Body) (branches : KeyBranches) (c : Copying),
      (∀ v ∈ body.children, st.Within roots v) → st.Grown roots c.store → branches.Regular →
      (∀ v ∈ body.children, st.ClassFree v) →
      Faithful branches st (branches.copyChildren keepClass trail body c).2.store body
        (branches.copyChildren keepClass trail body c).1 := by
  -- Which children are copied at all is known from the layout.
  have hlays := (KeyTree.copy_lays hsound keepClass).2
  refine KeyTree.copy_induct hsound keepClass
    (P := fun _ v tree _ x => tree.Regular → st.ClassFree v → ∀ t : Template, t.Describes st v →
      (t.thin tree.Removes).Describes x.2.store x.1)
    (Q := fun _ body branches _ x => branches.Regular → (∀ v ∈ body.children, st.ClassFree v) →
      Faithful branches st x.2.store body x.1)
    ?shared ?scalar ?date ?container ?none ?leaf ?absent ?child
  case shared =>
    intro trail v tree c hleaf hv hc _ _ t ht
    rw [KeyTree.thin_leaf hleaf]
    exact ht.agree (hsound.agreeBelow hc.toExtends hv)
  case scalar =>
    intro trail a ends branches c hne _ _ t ht
    obtain rfl := ht.scalar_inv
    exact rfl
  case date =>
    intro trail r ms ends branches c hne hr hc _ _ t ht
    have hinv := ht.node_inv
    rw [hr] at hinv
    subst hinv
    exact ⟨_, rfl, body_alloc_self _ _⟩
  case container =>
    intro trail r ends branches c first c₁ new c₂ hcopy ih hregular hclass t ht
    have hchildren := (hcopy.grown.children_within hsound hcopy.within).2
    have hlaid := hlays trail (st.body r) branches c₁ hchildren hcopy.begins.grown hregular
    rw [hcopy.children] at hlaid
    exact describes_container hsound hcopy hregular hclass hlaid
      (ih hregular fun v hv => hclass.child hv) ht
  case none => exact fun _ _ _ _ _ _ _ hu => by cases hu
  case leaf =>
    intro trail body key ends rest c hv hc ih hregular hclass
    exact (ih hregular.2.2.2 hclass).skip (hlays trail body rest c hv hc hregular.2.2.2) hregular.1
  case absent =>
    intro trail body key tree rest c c' _ _ _ hv hc ih hregular hclass
    exact (ih hregular.2.2.2 hclass).skip (hlays trail body rest c' hv hc hregular.2.2.2) hregular.1
  case child =>
    intro trail body key tree rest c w w' c₁ new c₂ hcopy ih ihrest hregular hclass
    have hlaid := hlays trail body rest c₁ hcopy.within hcopy.begins.grown hregular.2.2.2
    rw [hcopy.others] at hlaid
    have hw := hclass w (Body.mem_children_of_child? hcopy.child)
    refine (ihrest hregular.2.2.2 hclass).cons hlaid hregular.1 hcopy.child fun t ht => ?_
    refine (ih hregular.2.2.1 hw t ht).agree ?_
    exact hcopy.begins.grown.agreeBelow hsound (hcopy.begins.available _ List.mem_cons_self)
      hcopy.adds.ext

/-- A template that describes a value without instances of classes describes its copy, without the
entries that the paths drop. -/
theorem Store.copy_thinned (hsound : st.Sound roots) (keepClass : Bool) {v : Value}
    (hv : st.Within roots v) (hclass : st.ClassFree v) (paths : List KeyPath) {t : Template}
    (ht : t.Describes st v) :
    (t.thin (Dropped paths)).Describes (st.copy keepClass v paths).2.store
      (st.copy keepClass v paths).1 := by
  have hdropped : Dropped paths = (KeyTree.ofPaths paths).Removes :=
    funext fun d => propext KeyTree.removes_ofPaths.symm
  rw [hdropped]
  exact (KeyTree.copy_describes hsound keepClass).1 [] v (.ofPaths paths) ⟨st, []⟩ hv
    (grown_refl st roots) (KeyTree.regular_ofPaths paths) hclass t ht

/-- A template that describes a value describes its copy along paths that delete nothing. -/
theorem Store.copy_describes (hsound : st.Sound roots) (keepClass : Bool) {v : Value}
    (hv : st.Within roots v) (hclass : st.ClassFree v) {paths : List KeyPath}
    (hpaths : ∀ p ∈ paths, p.effect ≠ .mapDelete) {t : Template} (ht : t.Describes st v) :
    t.Describes (st.copy keepClass v paths).2.store (st.copy keepClass v paths).1 := by
  have hthinned := st.copy_thinned hsound keepClass hv hclass paths ht
  rwa [Template.thin_eq_self] at hthinned
  rintro k q ⟨⟨p, hp, -, heffect⟩, -⟩
  exact hpaths p hp heffect

end Copy

end PathCopy
