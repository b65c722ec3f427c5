import PathCopy.Proofs.Copies
import PathCopy.Proofs.KeyTrees

/-!
Positions of a copy. A copy has new nodes exactly at the positions where a path goes on, and holds
at every other position the very value that the copied value holds there. The only positions that it
lacks are those at or below a map entry that every path through it deletes.
-/

namespace PathCopy

open Store

/-! ### Containers -/

/-- Where one of several new entries is found, or else the old one. -/
theorem Table.get?_insertAll {α : Type} {t : Table α} {es : List (String × α)} {k : String} {a : α}
    (h : t.get? k = some a) :
    (t.insertAll es).get? k = some a ∨ ∃ b, (k, b) ∈ es ∧ (t.insertAll es).get? k = some b := by
  induction es generalizing t a with
  | nil => exact .inl h
  | cons e es ih =>
      rw [Table.insertAll_cons]
      by_cases hk : k = e.1
      · have hnew : (t.insert e.1 e.2).get? k = some e.2 := by rw [Table.get?_insert, if_pos hk]
        rcases ih hnew with hb | ⟨b, hmem, hb⟩
        · exact .inr ⟨e.2, List.mem_cons.mpr (.inl (by rw [hk])), hb⟩
        · exact .inr ⟨b, List.mem_cons_of_mem _ hmem, hb⟩
      · have hold : (t.insert e.1 e.2).get? k = some a := by rw [Table.get?_insert, if_neg hk, h]
        refine (ih hold).imp id ?_
        rintro ⟨b, hmem, hb⟩
        exact ⟨b, List.mem_cons_of_mem _ hmem, hb⟩

theorem Table.get?_insertAll_entries {α : Type} (t : Table α) {fields : Table α} {k : String}
    {a : α} (h : fields.get? k = some a) : (t.insertAll fields.entries).get? k = some a := by
  have hentries : ∀ (es : List (String × α)) (t : Table α), (es.map Prod.fst).Nodup →
      (k, a) ∈ es → (t.insertAll es).get? k = some a := by
    intro es
    induction es with
    | nil => exact fun t _ => nofun
    | cons e es ih =>
        intro t hnodup hmem
        rw [List.map_cons, List.nodup_cons] at hnodup
        rw [Table.insertAll_cons]
        rcases List.mem_cons.mp hmem with rfl | hmem
        · have hnew : (t.insert k a).get? k = some a := by rw [Table.get?_insert, if_pos rfl]
          refine (Table.get?_insertAll hnew).resolve_right ?_
          rintro ⟨b, hb, -⟩
          exact hnodup.1 (List.mem_map.mpr ⟨(k, b), hb, rfl⟩)
        · exact ih _ hnodup.2 hmem
  exact hentries fields.entries t fields.nodup (mem_of_findEntry h)

theorem get?_eraseKeys {t : Table Value} {keys : List String} {k : String} (h : k ∉ keys) :
    (eraseKeys t keys).get? k = t.get? k := by
  induction keys generalizing t with
  | nil => rfl
  | cons key keys ih =>
      rw [List.mem_cons, not_or] at h
      have hstep : eraseKeys t (key :: keys) = eraseKeys (t.erase key) keys := rfl
      rw [hstep, ih h.2, Table.get?_erase, if_neg h.1]

theorem getElem?_setItems {items : List Value} {new : List (String × Value)} {k : String} {i : ℕ}
    {v : Value} (hk : Number.readIndex? k = some i) (h : items[i]? = some v) :
    (setItems items new)[i]? = some v ∨ ∃ w, (k, w) ∈ new ∧ (setItems items new)[i]? = some w := by
  induction new generalizing items v with
  | nil => exact .inl h
  | cons e new ih =>
      obtain ⟨key, u⟩ := e
      rw [setItems_cons]
      have hother : ∀ {items' : List Value}, items'[i]? = some v →
          (setItems items' new)[i]? = some v ∨
            ∃ w, (k, w) ∈ (key, u) :: new ∧ (setItems items' new)[i]? = some w := by
        intro items' h'
        refine (ih h').imp id ?_
        rintro ⟨w, hmem, hw⟩
        exact ⟨w, List.mem_cons_of_mem _ hmem, hw⟩
      cases hj : Number.readIndex? key with
      | none => exact hother h
      | some j =>
          by_cases hji : j = i
          · subst hji
            obtain ⟨hlt, -⟩ := List.getElem?_eq_some_iff.mp h
            have hset : (items.set j u)[j]? = some u := by simp [hlt]
            have hkey : key = k := Number.readIndex?_inj hj hk
            rcases ih hset with hw | ⟨w, hmem, hw⟩
            · exact .inr ⟨u, hkey ▸ List.mem_cons_self, hw⟩
            · exact .inr ⟨w, List.mem_cons_of_mem _ hmem, hw⟩
          · refine hother ?_
            dsimp only
            rw [List.getElem?_set_ne hji, h]

theorem Table.get?_insertAll_of_mem {α : Type} {t : Table α} {es : List (String × α)} {k : String}
    (h : k ∈ es.map Prod.fst) : ∃ a, (k, a) ∈ es ∧ (t.insertAll es).get? k = some a := by
  induction es generalizing t with
  | nil => cases h
  | cons e es ih =>
      rw [Table.insertAll_cons]
      by_cases hk : k ∈ es.map Prod.fst
      · obtain ⟨a, ha, hget⟩ := ih hk
        exact ⟨a, List.mem_cons_of_mem _ ha, hget⟩
      · obtain rfl : k = e.1 := (List.mem_cons.mp h).resolve_right hk
        have hnew : (t.insert e.1 e.2).get? e.1 = some e.2 := by rw [Table.get?_insert, if_pos rfl]
        refine ⟨e.2, List.mem_cons_self, (Table.get?_insertAll hnew).resolve_right ?_⟩
        rintro ⟨b, hb, -⟩
        exact hk (List.mem_map.mpr ⟨_, hb, rfl⟩)

theorem Table.get?_insertAll_of_notMem {α : Type} {t : Table α} {es : List (String × α)}
    {k : String} (h : k ∉ es.map Prod.fst) : (t.insertAll es).get? k = t.get? k := by
  induction es generalizing t with
  | nil => rfl
  | cons e es ih =>
      rw [List.map_cons, List.mem_cons, not_or] at h
      rw [Table.insertAll_cons, ih h.2, Table.get?_insert, if_neg h.1]

theorem get?_eraseKeys_of_mem {t : Table Value} {keys : List String} {k : String} (h : k ∈ keys) :
    (eraseKeys t keys).get? k = none := by
  induction keys generalizing t with
  | nil => cases h
  | cons key keys ih =>
      have hstep : eraseKeys t (key :: keys) = eraseKeys (t.erase key) keys := rfl
      rw [hstep]
      by_cases hk : k ∈ keys
      · exact ih hk
      · obtain rfl : k = key := (List.mem_cons.mp h).resolve_right hk
        rw [get?_eraseKeys hk, Table.get?_erase, if_pos rfl]

theorem getElem?_setItems_of_mem {items : List Value} {new : List (String × Value)} {k : String}
    {i : ℕ} (hk : Number.readIndex? k = some i) (hi : i < items.length)
    (h : k ∈ new.map Prod.fst) : ∃ w, (k, w) ∈ new ∧ (setItems items new)[i]? = some w := by
  induction new generalizing items with
  | nil => cases h
  | cons e new ih =>
      obtain ⟨key, u⟩ := e
      rw [setItems_cons]
      by_cases hmem : k ∈ new.map Prod.fst
      · have hlength : i < (setItems items [(key, u)]).length := by
          rw [setItems_cons]
          split
          · rwa [setItems, List.foldl_nil, List.length_set]
          · exact hi
        obtain ⟨w, hw, hget⟩ := ih hlength hmem
        exact ⟨w, List.mem_cons_of_mem _ hw, hget⟩
      · obtain rfl : k = key := (List.mem_cons.mp h).resolve_right hmem
        refine ⟨u, List.mem_cons_self, ?_⟩
        have hset : (items.set i u)[i]? = some u := by simp [hi]
        rw [hk]
        refine (getElem?_setItems hk hset).resolve_right ?_
        rintro ⟨w, hw, -⟩
        exact hmem (List.mem_map_of_mem (f := Prod.fst) hw)

theorem Copying.get?_recordBase (c : Copying) (keepClass : Bool) (cls : Option Class)
    {fields : Table Value} {k : String} {v : Value} (h : fields.get? k = some v) :
    (c.recordBase keepClass cls fields).2.1.get? k = some v := by
  rw [recordBase_eq]
  split
  · exact Table.get?_insertAll_entries _ h
  · exact h

/-- The contents of a container with new children at some keys and without others: `body'` holds a
new child where there is one, and of the other children those that are not removed. -/
structure Body.Refills (body : Body) (new : List (String × Value)) (removed : List String)
    (body' : Body) : Prop where
  kind : body'.kind = body.kind
  replaced : ∀ {k c}, body.child? k = some c → k ∈ new.map Prod.fst →
    ∃ u, (k, u) ∈ new ∧ body'.child? k = some u
  kept : ∀ {k c}, body.child? k = some c → k ∉ new.map Prod.fst →
    body'.child? k = if body.kind = .map ∧ k ∈ removed then none else some c

namespace Body

theorem refills_date (ms : ℤ) (new : List (String × Value)) (removed : List String) :
    (date ms).Refills new removed (date ms) where
  kind := rfl
  replaced hc := by simp [child?] at hc
  kept hc := by simp [child?] at hc

theorem refills_list (items : List Value) (new : List (String × Value)) (removed : List String) :
    (list items).Refills new removed (list (setItems items new)) where
  kind := rfl
  replaced {k c} hc hk := by
    obtain ⟨i, hi, hc⟩ := Option.bind_eq_some_iff.mp hc
    obtain ⟨hlt, -⟩ := List.getElem?_eq_some_iff.mp hc
    obtain ⟨u, hu, hset⟩ := getElem?_setItems_of_mem hi hlt hk
    exact ⟨u, hu, by rw [child?, hi, Option.bind_some, hset]⟩
  kept {k c} hc hk := by
    obtain ⟨i, hi, hc⟩ := Option.bind_eq_some_iff.mp hc
    rw [if_neg fun hmap => Kind.noConfusion hmap.1, child?, hi, Option.bind_some]
    refine (getElem?_setItems hi hc).resolve_right ?_
    rintro ⟨u, hu, -⟩
    exact hk (List.mem_map_of_mem (f := Prod.fst) hu)

theorem refills_map (entries : Table Value) (new : List (String × Value)) (removed : List String) :
    (map entries).Refills new removed (map ((eraseKeys entries removed).insertAll new)) where
  kind := rfl
  replaced _ hk := Table.get?_insertAll_of_mem hk
  kept {k c} hc hk := by
    rw [child?, Table.get?_insertAll_of_notMem hk]
    by_cases hremoved : k ∈ removed
    · rw [if_pos ⟨rfl, hremoved⟩, get?_eraseKeys_of_mem hremoved]
    · rw [if_neg fun hmap => hremoved hmap.2, get?_eraseKeys hremoved]
      exact hc

theorem refills_record {cls cls' : Option Class} {fields base : Table Value}
    (hbase : ∀ {k v}, fields.get? k = some v → base.get? k = some v) (new : List (String × Value))
    (removed : List String) :
    (record cls fields).Refills new removed (record cls' (base.insertAll new)) where
  kind := rfl
  replaced _ hk := Table.get?_insertAll_of_mem hk
  kept {k c} hc hk := by
    rw [if_neg fun hmap => Kind.noConfusion hmap.1, child?, Table.get?_insertAll_of_notMem hk]
    exact hbase hc

end Body

/-- The copy of a container is the container with the copies of children put in. -/
theorem Copying.base_refills (c : Copying) (keepClass : Bool) (dropped : List String) (body : Body)
    (new : List (String × Value)) :
    body.Refills new dropped ((c.base keepClass dropped body).1.fill new) := by
  cases body with
  | date ms => exact Body.refills_date ms new dropped
  | list items => exact Body.refills_list items new dropped
  | map entries => exact Body.refills_map entries new dropped
  | record cls fields => exact Body.refills_record (c.get?_recordBase keepClass cls) new dropped

/-! ### Layouts -/

/-- A new node of a store that has grown out of another one. -/
def Store.Fresh (st st' : Store) (v : Value) : Prop :=
  ∃ r : Ref, v = .node r ∧ st.size ≤ r.index ∧ r.index < st'.size

/-- A position of a value with a map right above it. -/
def Store.IsEntry (st : Store) (v : Value) (d : List String) : Prop :=
  d ≠ [] ∧ (st.at? v d.dropLast).map st.kind = some .map

namespace KeyTree

/-- A copy lacks the position: it is at or below a map entry that the tree removes. -/
def Drops (t : KeyTree) (st : Store) (v : Value) (q : List String) : Prop :=
  ∃ d, d <+: q ∧ t.Removes d ∧ st.IsEntry v d

/-- What a copy `u` of `v` for the paths of a tree holds at the positions of `v`. -/
structure Lays (t : KeyTree) (st : Store) (v : Value) (st' : Store) (u : Value) : Prop where
  dropped : ∀ {q w}, st.at? v q = some w → t.Drops st v q → st'.at? u q = none
  kept : ∀ {q w}, st.at? v q = some w → ¬ t.Drops st v q →
    ∃ w', st'.at? u q = some w' ∧ (w.isNode → t.Passes q → st.Fresh st' w') ∧
      (¬ (w.isNode ∧ t.Passes q) → w' = w)
  kinds : ∀ {q w w'}, st.at? v q = some w → st'.at? u q = some w' → st'.kind w' = st.kind w

variable {t : KeyTree} {st st' st'' : Store} {u v c : Value} {r : Ref} {k : String}
  {q : List String} {roots : List Value} {body : Body}

theorem not_drops_nil : ¬ t.Drops st v [] := by
  rintro ⟨d, hd, -, hne, -⟩
  exact hne (List.prefix_nil.mp hd)

theorem drops_cons (hc : (st.body r).child? k = some c) :
    t.Drops st (.node r) (k :: q) ↔
      (st.kind (.node r) = .map ∧ (t.under k).Removes []) ∨ (t.under k).Drops st c q := by
  constructor
  · rintro ⟨d, hd, hremoves, hne, hmap⟩
    obtain ⟨l, d, rfl⟩ := List.exists_cons_of_ne_nil hne
    obtain ⟨rfl, hprefix⟩ := List.cons_prefix_cons.mp hd
    cases d with
    | nil => exact .inl ⟨by simpa [at?] using hmap, hremoves⟩
    | cons l' d =>
        rw [List.dropLast_cons_cons, at?, hc] at hmap
        exact .inr ⟨l' :: d, hprefix, hremoves, List.cons_ne_nil _ _, hmap⟩
  · rintro (⟨hmap, hremoves⟩ | ⟨d, hd, hremoves, hne, hmap⟩)
    · refine ⟨[k], List.cons_prefix_cons.mpr ⟨rfl, List.nil_prefix⟩, hremoves, List.cons_ne_nil _ _, ?_⟩
      rw [List.dropLast_singleton, at?, Option.map_some, hmap]
    · refine ⟨k :: d, List.cons_prefix_cons.mpr ⟨rfl, hd⟩, hremoves, List.cons_ne_nil _ _, ?_⟩
      obtain ⟨l, d, rfl⟩ := List.exists_cons_of_ne_nil hne
      rw [List.dropLast_cons_cons, at?, hc]
      exact hmap

/-- Where no path goes on, the value is its own copy. -/
theorem lays_leaf (h : t.isLeaf) (hagree : st.AgreeBelow st' v) : t.Lays st v st' v where
  dropped := by
    rintro q w hw ⟨d, -, hremoves, hne, -⟩
    obtain ⟨k, d, rfl⟩ := List.exists_cons_of_ne_nil hne
    exact absurd hremoves.1 (not_holds_leaf h)
  kept hw _ :=
    ⟨_, hagree.at?_eq.trans hw, fun _ hpasses => absurd hpasses (not_passes_leaf h), fun _ => rfl⟩
  kinds hw hw' := by
    rw [hagree.at?_eq, hw] at hw'
    cases hw'
    exact hagree.kind_eq (reaches_of_at? hw)

theorem lays_scalar (a : Scalar) : t.Lays st (.scalar a) st' (.scalar a) where
  dropped {q w} hw hdrops := by
    cases q with
    | nil => exact absurd hdrops not_drops_nil
    | cons k q => cases hw
  kept {q w} hw _ := by
    cases q with
    | nil =>
        cases hw
        exact ⟨_, rfl, nofun, fun _ => rfl⟩
    | cons k q => cases hw
  kinds {q w w'} hw hw' := by
    cases q with
    | nil =>
        cases hw
        cases hw'
        rfl
    | cons k q => cases hw

theorem Lays.mono (h : t.Lays st v st' u) (hagree : st'.AgreeBelow st'' u)
    (hsize : st'.size ≤ st''.size) : t.Lays st v st'' u where
  dropped hw hdrops := hagree.at?_eq.trans (h.dropped hw hdrops)
  kept hw hdrops := by
    obtain ⟨w', hw', hnew, hold⟩ := h.kept hw hdrops
    refine ⟨w', hagree.at?_eq.trans hw', fun hnode hpasses => ?_, hold⟩
    obtain ⟨s, rfl, hs, hlt⟩ := hnew hnode hpasses
    exact ⟨s, rfl, hs, Nat.lt_of_lt_of_le hlt hsize⟩
  kinds hw hw' := by
    rw [hagree.at?_eq] at hw'
    rw [hagree.kind_eq (reaches_of_at? hw'), h.kinds hw hw']

/-- A new node is laid out if it holds under each key a child that is laid out, and lacks the
entries that are removed. -/
theorem lays_alloc (hregular : t.Regular) (hleaf : t.isLeaf = false) (hsize : st.size ≤ st'.size)
    (hkind : body.kind = (st.body r).kind)
    (hremoved : ∀ k c, (st.body r).child? k = some c → st.kind (.node r) = .map →
      (t.under k).Removes [] → body.child? k = none)
    (hkept : ∀ k c, (st.body r).child? k = some c →
      ¬ (st.kind (.node r) = .map ∧ (t.under k).Removes []) →
      ∃ c', body.child? k = some c' ∧ st'.AgreeBelow (st'.alloc body).2 c' ∧
        (t.under k).Lays st c st' c') :
    t.Lays st (.node r) (st'.alloc body).2 (st'.alloc body).1 := by
  have hgrow : st'.size ≤ (st'.alloc body).2.size := by simp
  -- In each field the position is the new node itself, or it begins with the key of a child.
  constructor
  · intro q w hw hdrops
    cases q with
    | nil => exact absurd hdrops not_drops_nil
    | cons k q =>
        rw [at?] at hw
        obtain ⟨c, hc, hw⟩ := Option.bind_eq_some_iff.mp hw
        rw [fst_alloc, at?, body_alloc_self]
        by_cases hremoves : st.kind (.node r) = .map ∧ (t.under k).Removes []
        · rw [hremoved k c hc hremoves.1 hremoves.2, Option.bind_none]
        · obtain ⟨c', hc', hagree, hlays⟩ := hkept k c hc hremoves
          rw [hc', Option.bind_some, hagree.at?_eq]
          exact hlays.dropped hw (((drops_cons hc).mp hdrops).resolve_left hremoves)
  · intro q w hw hdrops
    cases q with
    | nil =>
        cases hw
        refine ⟨(st'.alloc body).1, rfl, fun _ _ => ⟨⟨st'.size⟩, rfl, hsize, by simp⟩, fun hnot => ?_⟩
        exact absurd ⟨rfl, hregular.passes_nil hleaf⟩ hnot
    | cons k q =>
        rw [at?] at hw
        obtain ⟨c, hc, hw⟩ := Option.bind_eq_some_iff.mp hw
        rw [drops_cons hc, not_or] at hdrops
        obtain ⟨c', hc', hagree, hlays⟩ := hkept k c hc hdrops.1
        obtain ⟨w', hw', hnew, hold⟩ := (hlays.mono hagree hgrow).kept hw hdrops.2
        refine ⟨w', ?_, hnew, hold⟩
        rw [fst_alloc, at?, body_alloc_self, hc']
        exact hw'
  · intro q w w' hw hw'
    cases q with
    | nil =>
        cases hw
        cases hw'
        rw [fst_alloc, kind, body_alloc_self, hkind, kind]
    | cons k q =>
        rw [at?] at hw
        obtain ⟨c, hc, hw⟩ := Option.bind_eq_some_iff.mp hw
        rw [fst_alloc, at?, body_alloc_self] at hw'
        by_cases hremoves : st.kind (.node r) = .map ∧ (t.under k).Removes []
        · rw [hremoved k c hc hremoves.1 hremoves.2] at hw'
          cases hw'
        · obtain ⟨c', hc', hagree, hlays⟩ := hkept k c hc hremoves
          rw [hc'] at hw'
          exact (hlays.mono hagree hgrow).kinds hw hw'

end KeyTree

/-- The copies of the children of a container: there is one exactly for each child that a path
passes through. -/
structure KeyBranches.Lays (branches : KeyBranches) (st : Store) (body : Body) (st' : Store)
    (new : List (String × Value)) : Prop where
  nodup : (new.map Prod.fst).Nodup
  origin : ∀ {k u}, (k, u) ∈ new → ∃ c, body.child? k = some c
  passed : ∀ {k u}, (k, u) ∈ new → (branches.under k).isLeaf = false
  child : ∀ {k u c}, (k, u) ∈ new → body.child? k = some c → (branches.under k).Lays st c st' u
  copied : ∀ {k c}, body.child? k = some c → (branches.under k).isLeaf = false →
    k ∈ new.map Prod.fst

theorem KeyBranches.under_cons (key : String) (tree : KeyTree) (rest : KeyBranches) (k : String) :
    (KeyBranches.cons key tree rest).under k = if key = k then tree else rest.under k := by
  rw [under, find?]
  split <;> rfl

theorem KeyBranches.Lays.key_ne {key : String} {rest : KeyBranches} {st st' : Store} {body : Body}
    {new : List (String × Value)} (h : rest.Lays st body st' new) (hkey : rest.find? key = none)
    {k : String} {u : Value} (hu : (k, u) ∈ new) : key ≠ k := by
  rintro rfl
  have hleaf := h.passed hu
  rw [under, hkey] at hleaf
  cases hleaf

theorem KeyBranches.Lays.skip {key : String} {tree : KeyTree} {rest : KeyBranches} {st st' : Store}
    {body : Body} {new : List (String × Value)} (h : rest.Lays st body st' new)
    (hkey : rest.find? key = none) (hskip : tree.isLeaf ∨ body.child? key = none) :
    (KeyBranches.cons key tree rest).Lays st body st' new := by
  refine ⟨h.nodup, h.origin, fun hu => ?_, fun hu hc => ?_, fun {k c} hc hleaf => ?_⟩
  · rw [under_cons, if_neg (h.key_ne hkey hu)]
    exact h.passed hu
  · rw [under_cons, if_neg (h.key_ne hkey hu)]
    exact h.child hu hc
  · rw [under_cons] at hleaf
    by_cases hk : key = k
    · subst hk
      rw [if_pos rfl] at hleaf
      rcases hskip with hskip | hskip
      · rw [hleaf] at hskip
        cases hskip
      · rw [hc] at hskip
        cases hskip
    · rw [if_neg hk] at hleaf
      exact h.copied hc hleaf

/-- A removed entry is not among the copied children, since no path goes on behind it. -/
theorem KeyBranches.Lays.notMem_dropped {branches : KeyBranches} {st st' : Store} {body : Body}
    {new : List (String × Value)} (h : branches.Lays st body st' new) (hregular : branches.Regular)
    {k : String} (hk : k ∈ new.map Prod.fst) : k ∉ branches.dropped := by
  intro hdropped
  obtain ⟨⟨key, u⟩, hu, rfl⟩ := List.mem_map.mp hk
  have hunder : (branches.under key).Regular :=
    KeyTree.Regular.under (t := .node [] branches) hregular key
  have hremoved := hregular.mem_dropped_iff.mp hdropped
  exact hremoved.not_passes (hunder.passes_nil (h.passed hu))

/-- A container that is filled up with the copied children holds them all. -/
theorem KeyBranches.Lays.subset_children {branches : KeyBranches} {st st' : Store}
    {body body' : Body} {new : List (String × Value)} {removed : List String}
    (h : branches.Lays st body st' new) (hrefills : body.Refills new removed body') :
    new.map Prod.snd ⊆ body'.children := by
  intro u hu
  obtain ⟨⟨k, u⟩, hmem, rfl⟩ := List.mem_map.mp hu
  obtain ⟨c, hc⟩ := h.origin hmem
  obtain ⟨u', hmem', hchild⟩ := hrefills.replaced hc (List.mem_map_of_mem hmem)
  obtain ⟨-, rfl⟩ := Prod.mk.inj (List.inj_on_of_nodup_map h.nodup hmem' hmem rfl)
  exact Body.mem_children_of_child? hchild

theorem KeyBranches.Lays.cons {key : String} {tree : KeyTree} {rest : KeyBranches} {st st' : Store}
    {body : Body} {new : List (String × Value)} {c u : Value} (h : rest.Lays st body st' new)
    (hkey : rest.find? key = none) (hleaf : tree.isLeaf = false) (hc : body.child? key = some c)
    (hu : tree.Lays st c st' u) :
    (KeyBranches.cons key tree rest).Lays st body st' ((key, u) :: new) := by
  -- In each field the key is the new one, or it is another one and the rest has the field.
  constructor
  · rw [List.map_cons, List.nodup_cons]
    refine ⟨fun hmem => ?_, h.nodup⟩
    obtain ⟨⟨k, u'⟩, hu', rfl⟩ := List.mem_map.mp hmem
    exact h.key_ne hkey hu' rfl
  · intro k u' hu'
    rcases List.mem_cons.mp hu' with heq | hu'
    · cases heq
      exact ⟨c, hc⟩
    · exact h.origin hu'
  · intro k u' hu'
    rw [under_cons]
    rcases List.mem_cons.mp hu' with heq | hu'
    · cases heq
      rwa [if_pos rfl]
    · rw [if_neg (h.key_ne hkey hu')]
      exact h.passed hu'
  · intro k u' c' hu' hc'
    rw [under_cons]
    rcases List.mem_cons.mp hu' with heq | hu'
    · cases heq
      rw [hc] at hc'
      cases hc'
      rwa [if_pos rfl]
    · rw [if_neg (h.key_ne hkey hu')]
      exact h.child hu' hc'
  · intro k c' hc' hk
    rw [List.map_cons, List.mem_cons]
    by_cases hkk : k = key
    · exact .inl hkk
    · rw [under_cons, if_neg (Ne.symm hkk)] at hk
      exact .inr (h.copied hc' hk)

/-! ### The copy -/

section Copy

variable {st : Store} {roots : List Value}

/-- A new container is laid out if it holds the copied children, and of the other ones those that
are not removed. -/
theorem KeyTree.lays_container (hsound : st.Sound roots) {r : Ref} {body : Body} {st₁ st₂ : Store}
    {ends : List Effect} {branches : KeyBranches} {new : List (String × Value)}
    (hadds : st.Adds roots st₁ st₂ (new.map Prod.snd))
    (hchildren : ∀ v ∈ (st.body r).children, st.Within roots v)
    (hlays : branches.Lays st (st.body r) st₂ new) (hregular : branches.Regular)
    (hne : branches ≠ .nil) (hrefills : (st.body r).Refills new branches.dropped body) :
    (KeyTree.node ends branches).Lays st (.node r) (st₂.alloc body).2 (st₂.alloc body).1 := by
  have hremoves : ∀ {k}, ((KeyTree.node ends branches).under k).Removes [] ↔ k ∈ branches.dropped :=
    hregular.mem_dropped_iff.symm
  refine lays_alloc hregular (isLeaf_node hne) hadds.grown.size_le hrefills.kind ?_ ?_
  · intro k c hc hmap hk
    rw [hremoves] at hk
    rw [hrefills.kept hc fun hmem => hlays.notMem_dropped hregular hmem hk, if_pos ⟨hmap, hk⟩]
  · intro k c hc hk
    rw [hremoves] at hk
    by_cases hmem : k ∈ new.map Prod.fst
    · obtain ⟨u, hu, hchild⟩ := hrefills.replaced hc hmem
      refine ⟨u, hchild, ?_, hlays.child hu hc⟩
      have havailable := hadds.available u (List.mem_map_of_mem (f := Prod.snd) hu)
      exact hadds.grown.agreeBelow hsound havailable (extends_alloc st₂ body)
    · have hwithin := hchildren c (Body.mem_children_of_child? hc)
      refine ⟨c, (hrefills.kept hc hmem).trans (if_neg hk), ?_, lays_leaf ?_ ?_⟩
      · exact hadds.grown.agreeBelow hsound (available_of_within hwithin) (extends_alloc st₂ body)
      · by_contra hpass
        exact hmem (hlays.copied hc (eq_false_of_ne_true hpass))
      · exact hsound.agreeBelow hadds.grown.toExtends hwithin

theorem ContainerCopy.refills {keepClass : Bool} {trail : List String} {branches : KeyBranches}
    {body first : Body} {c c₁ c₂ : Copying} {new : List (String × Value)}
    (h : ContainerCopy keepClass trail branches body c first c₁ new c₂) :
    body.Refills new branches.dropped (first.fill new) := by
  have hrefills := c.base_refills keepClass branches.dropped body new
  rwa [h.base] at hrefills

theorem KeyTree.copy_lays (hsound : st.Sound roots) (keepClass : Bool) :
    (∀ (trail : List String) (v : Value) (tree : KeyTree) (c : Copying),
      st.Within roots v → st.Grown roots c.store → tree.Regular →
      tree.Lays st v (tree.copy keepClass trail v c).2.store (tree.copy keepClass trail v c).1) ∧
    ∀ (trail : List String) (body : Body) (branches : KeyBranches) (c : Copying),
      (∀ v ∈ body.children, st.Within roots v) → st.Grown roots c.store → branches.Regular →
      branches.Lays st body (branches.copyChildren keepClass trail body c).2.store
        (branches.copyChildren keepClass trail body c).1 := by
  refine KeyTree.copy_induct hsound keepClass
    (P := fun _ v tree _ x => tree.Regular → tree.Lays st v x.2.store x.1)
    (Q := fun _ body branches _ x => branches.Regular → branches.Lays st body x.2.store x.1)
    ?shared ?scalar ?date ?container ?none ?leaf ?absent ?child
  case shared =>
    exact fun _ _ _ _ hleaf hv hc _ => lays_leaf hleaf (hsound.agreeBelow hc.toExtends hv)
  case scalar => exact fun _ a _ _ _ _ _ => lays_scalar a
  case date =>
    intro trail r ms ends branches c hne hr hc hregular
    -- A date is a container without children here.
    have hempty : ∀ {k w}, (st.body r).child? k ≠ some w := by simp [hr, Body.child?]
    have hnone : branches.Lays st (st.body r) c.store [] :=
      ⟨by simp, by simp, by simp, by simp, fun hw => absurd hw hempty⟩
    refine lays_container hsound (Adds.none hc) (by simp [hr, Body.children]) hnone hregular hne ?_
    exact hr ▸ Body.refills_date ms [] branches.dropped
  case container =>
    intro trail r ends branches c first c₁ new c₂ hcopy ih hregular
    have hchildren := (hcopy.grown.children_within hsound hcopy.within).2
    exact lays_container hsound hcopy.adds hchildren (ih hregular) hregular hcopy.passed
      hcopy.refills
  case none =>
    exact fun _ _ _ _ => ⟨by simp, by simp, by simp, by simp, fun _ hleaf => by cases hleaf⟩
  case leaf =>
    exact fun _ _ _ _ _ _ _ _ ih hregular => (ih hregular.2.2.2).skip hregular.1 (.inl rfl)
  case absent =>
    exact fun _ _ _ _ _ _ _ _ hchild _ _ _ ih hregular =>
      (ih hregular.2.2.2).skip hregular.1 (.inr hchild)
  case child =>
    intro trail body key tree rest c w w' c₁ new c₂ hcopy ih ihrest hregular
    refine (ihrest hregular.2.2.2).cons hregular.1 hcopy.passed hcopy.child
      ((ih hregular.2.2.1).mono ?_ hcopy.adds.ext.size_le)
    exact hcopy.begins.grown.agreeBelow hsound (hcopy.begins.available _ List.mem_cons_self)
      hcopy.adds.ext

end Copy

/-! ### Lists of paths -/

/-- The position is a proper prefix of a path. -/
def Passed (paths : List KeyPath) (q : List String) : Prop :=
  ∃ p ∈ paths, q <+: p.keys ∧ q ≠ p.keys

/-- The paths drop a map entry: one of them deletes it, and so does every one that comes to it. -/
def Dropped (paths : List KeyPath) (d : List String) : Prop :=
  (∃ p ∈ paths, p.keys = d ∧ p.effect = .mapDelete) ∧
    ∀ p ∈ paths, d <+: p.keys → p.keys = d ∧ p.effect = .mapDelete

/-- The position is at or below a map entry that the paths drop. -/
def Store.Lost (st : Store) (v : Value) (paths : List KeyPath) (q : List String) : Prop :=
  ∃ d, d <+: q ∧ st.IsEntry v d ∧ Dropped paths d

section Lists

variable {st : Store} {v w : Value} {paths : List KeyPath} {q d : List String}

instance : Decidable (st.IsEntry v d) :=
  inferInstanceAs (Decidable (d ≠ [] ∧ (st.at? v d.dropLast).map st.kind = some .map))

instance : Decidable (Passed paths q) :=
  inferInstanceAs (Decidable (∃ p ∈ paths, q <+: p.keys ∧ q ≠ p.keys))

instance : Decidable (Dropped paths d) :=
  inferInstanceAs (Decidable ((∃ p ∈ paths, p.keys = d ∧ p.effect = .mapDelete) ∧
    ∀ p ∈ paths, d <+: p.keys → p.keys = d ∧ p.effect = .mapDelete))

instance : Decidable (st.Lost v paths q) :=
  decidable_of_iff (∃ d ∈ q.inits, st.IsEntry v d ∧ Dropped paths d)
    (exists_congr fun d => and_congr_left' (List.mem_inits d q))

theorem KeyTree.passes_ofPaths : (KeyTree.ofPaths paths).Passes q ↔ Passed paths q := by
  constructor
  · rintro ⟨k, keys, e, hholds⟩
    refine ⟨_, holds_ofPaths.mp hholds, List.prefix_append _ _, fun heq => ?_⟩
    simpa using heq.symm
  · rintro ⟨p, hp, ⟨rest, hrest⟩, hne⟩
    cases rest with
    | nil => exact absurd (by simpa using hrest) hne
    | cons k keys => exact ⟨k, keys, p.effect, holds_ofPaths.mpr (hrest ▸ hp)⟩

theorem KeyTree.removes_ofPaths : (KeyTree.ofPaths paths).Removes d ↔ Dropped paths d := by
  constructor
  · rintro ⟨hholds, hall⟩
    refine ⟨⟨_, holds_ofPaths.mp hholds, rfl, rfl⟩, ?_⟩
    rintro ⟨_, e⟩ hp ⟨keys, rfl⟩
    obtain ⟨rfl, rfl⟩ := hall keys e (holds_ofPaths.mpr hp)
    exact ⟨List.append_nil _, rfl⟩
  · rintro ⟨⟨⟨_, _⟩, hp, rfl, rfl⟩, hall⟩
    refine ⟨holds_ofPaths.mpr hp, fun keys e hholds => ?_⟩
    obtain ⟨hkeys, heffect⟩ := hall _ (holds_ofPaths.mp hholds) (List.prefix_append _ _)
    exact ⟨by simpa using hkeys, heffect⟩

theorem KeyTree.drops_ofPaths : (KeyTree.ofPaths paths).Drops st v q ↔ st.Lost v paths q := by
  simp only [Drops, Store.Lost, removes_ofPaths, and_comm (a := Dropped _ _)]

theorem Store.copy_lays {roots : List Value} (hsound : st.Sound roots) (keepClass : Bool)
    (hv : st.Within roots v) (paths : List KeyPath) :
    (KeyTree.ofPaths paths).Lays st v (st.copy keepClass v paths).2.store
      (st.copy keepClass v paths).1 :=
  (KeyTree.copy_lays hsound keepClass).1 [] v (.ofPaths paths) ⟨st, []⟩ hv (grown_refl st roots)
    (KeyTree.regular_ofPaths paths)

/-- What a copy holds at a position that it does not lack. -/
theorem Store.copy_kept {roots : List Value} (hsound : st.Sound roots) (keepClass : Bool)
    (hv : st.Within roots v) (hw : st.at? v q = some w) (hlost : ¬ st.Lost v paths q) :
    ∃ w', (st.copy keepClass v paths).2.store.at? (st.copy keepClass v paths).1 q = some w' ∧
      (w.isNode → Passed paths q → st.Fresh (st.copy keepClass v paths).2.store w') ∧
      (¬ (w.isNode ∧ Passed paths q) → w' = w) := by
  have hkept := (st.copy_lays hsound keepClass hv paths).kept hw (mt KeyTree.drops_ofPaths.mp hlost)
  rwa [KeyTree.passes_ofPaths] at hkept

/-- A copy lacks the positions at or below a dropped entry. At every other position of the copied
value it holds a new node exactly where the value holds a node and a path goes on, and elsewhere
what the value holds. -/
theorem Store.copy_layout (hsound : st.Sound [v]) (keepClass : Bool) (paths : List KeyPath)
    (hw : st.at? v q = some w) :
    (st.Lost v paths q →
      (st.copy keepClass v paths).2.store.at? (st.copy keepClass v paths).1 q = none) ∧
    (¬ st.Lost v paths q →
      ∃ w', (st.copy keepClass v paths).2.store.at? (st.copy keepClass v paths).1 q = some w' ∧
        (st.Fresh (st.copy keepClass v paths).2.store w' ↔ w.isNode ∧ Passed paths q) ∧
        (¬ (w.isNode ∧ Passed paths q) → w' = w)) := by
  have hv : st.Within [v] v := within_of_mem List.mem_cons_self
  refine ⟨fun hlost => ?_, fun hlost => ?_⟩
  · exact (st.copy_lays hsound keepClass hv paths).dropped hw (KeyTree.drops_ofPaths.mpr hlost)
  · obtain ⟨w', hw', hnew, hold⟩ := Store.copy_kept hsound keepClass hv hw hlost
    refine ⟨w', hw', ⟨fun hfresh => ?_, fun hboth => hnew hboth.1 hboth.2⟩, hold⟩
    -- A node of the value itself is not new.
    by_contra hnot
    obtain ⟨r, rfl, hr, -⟩ := hfresh
    cases hold hnot
    exact absurd (hsound r ⟨v, List.mem_singleton_self v, reaches_of_at? hw⟩) (Nat.not_lt_of_le hr)

def shelf : Store :=
  ⟨#[⟨true, .record none (.ofList [("x", .text "old")])⟩,
    ⟨false, .map (.ofList [("k", .text "gone"), ("l", .node ⟨0⟩)])⟩,
    ⟨false, .record none (.ofList [("m", .node ⟨1⟩)])⟩]⟩

def shelfPaths : List KeyPath :=
  [⟨["m", "k"], .mapDelete⟩, ⟨["m", "l", "x"], .assign⟩, ⟨["m", "l"], .mapDelete⟩]

/-- The entry that is only deleted is lost, the other one is copied. -/
theorem copy_layout_shelf :
    (shelf.copy false (.node ⟨2⟩) shelfPaths).2.store.at?
      (shelf.copy false (.node ⟨2⟩) shelfPaths).1 ["m", "k"] = none ∧
    ∃ w', (shelf.copy false (.node ⟨2⟩) shelfPaths).2.store.at?
        (shelf.copy false (.node ⟨2⟩) shelfPaths).1 ["m", "l"] = some w' ∧
      shelf.Fresh (shelf.copy false (.node ⟨2⟩) shelfPaths).2.store w' := by
  have hsound : shelf.Sound [.node ⟨2⟩] := Store.Layered.sound (by decide) (by decide)
  have hk : shelf.at? (.node ⟨2⟩) ["m", "k"] = some (.text "gone") := rfl
  have hl : shelf.at? (.node ⟨2⟩) ["m", "l"] = some (.node ⟨0⟩) := rfl
  refine ⟨(Store.copy_layout hsound false shelfPaths hk).1 (by decide), ?_⟩
  obtain ⟨w', hw', hfresh, -⟩ := (Store.copy_layout hsound false shelfPaths hl).2 (by decide)
  exact ⟨w', hw', hfresh.mpr ⟨rfl, by decide⟩⟩

theorem not_prefix_of_diverge {keys q : List String} (h : Diverge keys q) :
    ¬ keys <+: q ∧ ¬ q <+: keys := by
  induction keys generalizing q with
  | nil => cases q <;> exact h.elim
  | cons key keys ih =>
      cases q with
      | nil => exact h.elim
      | cons k q =>
          rw [List.cons_prefix_cons, List.cons_prefix_cons]
          rcases h with hne | h
          · exact ⟨fun hprefix => hne hprefix.1, fun hprefix => hne hprefix.1.symm⟩
          · exact ⟨fun hprefix => (ih h).1 hprefix.2, fun hprefix => (ih h).2 hprefix.2⟩

/-- At a position from which all paths part, the copy holds what the value holds. -/
theorem Store.copy_at? {roots : List Value} (hsound : st.Sound roots) (keepClass : Bool)
    (hv : st.Within roots v) (hpaths : ∀ p ∈ paths, Diverge p.keys q)
    (hw : st.at? v q = some w) :
    (st.copy keepClass v paths).2.store.at? (st.copy keepClass v paths).1 q = some w := by
  have hlost : ¬ st.Lost v paths q := by
    rintro ⟨d, hd, -, ⟨p, hp, rfl, -⟩, -⟩
    exact (not_prefix_of_diverge (hpaths p hp)).1 hd
  have hpassed : ¬ Passed paths q := by
    rintro ⟨p, hp, hprefix, -⟩
    exact (not_prefix_of_diverge (hpaths p hp)).2 hprefix
  obtain ⟨w', hw', -, hold⟩ := copy_kept hsound keepClass hv hw hlost
  rw [hw', hold fun hboth => hpassed hboth.2]

end Lists

end PathCopy
