import Mathlib.Data.List.Induction
import Mathlib.Data.List.Perm.Basic
import Mathlib.Data.Nat.Digits.Defs
import PathCopy.Value.Write

/-!
The children of a container under their keys. Two keys spell one list index only if they are the
same text, so a write under one key leaves what every other key leads to.
-/

namespace PathCopy

namespace Number

/-! ### Keys that spell an index -/

def digitOf (c : Char) : ℕ := c.toNat - '0'.toNat

theorem digitOf_lt {c : Char} (h : c.isDigit) : digitOf c < 10 := by
  have hle : c.toNat ≤ 57 := (Char.isDigit_iff_toNat.mp h).2
  show c.toNat - 48 < 10
  omega

theorem ofNat_digitOf {c : Char} (h : c.isDigit) : Char.ofNat (digitOf c + '0'.toNat) = c := by
  rw [digitOf, Nat.sub_add_cancel (Char.isDigit_iff_toNat.mp h).1, Char.ofNat_toNat]

theorem digitsValue_eq (ds : List Char) :
    digitsValue ds = Nat.ofDigits 10 (ds.map digitOf).reverse := by
  induction ds using List.reverseRecOn with
  | nil => rfl
  | append_singleton ds c ih =>
      rw [digitsValue, List.foldl_append, ← digitsValue, ih, List.map_append, List.reverse_append]
      simp [Nat.ofDigits_cons, digitOf]
      omega

theorem digits_of_readIndex? {key : String} {i : ℕ} (h : readIndex? key = some i) :
    (∀ c ∈ key.toList, c.isDigit) ∧ digitsValue key.toList = i ∧
      ∃ c cs, key.toList = c :: cs ∧ (c = '0' → cs = []) := by
  unfold readIndex? at h
  split at h
  · simp at h
  · next c cs hkey =>
    split at h
    · simp at h
    · next hzero =>
      split at h
      · next hall =>
        dsimp only at h
        split at h
        · cases h
          refine ⟨by simpa [hkey] using hall, by rw [hkey], c, cs, hkey, fun hc => ?_⟩
          by_cases hcs : cs = []
          · exact hcs
          · exact absurd ⟨hc, hcs⟩ hzero
        · simp at h
      · simp at h

theorem digitOf_eq_zero {c : Char} (h : c.isDigit) (hzero : digitOf c = 0) : c = '0' := by
  rw [← ofNat_digitOf h, hzero]
  rfl

theorem digits_digitsValue {c : Char} {cs : List Char} (hall : ∀ d ∈ c :: cs, d.isDigit)
    (hc : c ≠ '0') :
    Nat.digits 10 (digitsValue (c :: cs)) = ((c :: cs).map digitOf).reverse := by
  rw [digitsValue_eq, Nat.digits_ofDigits 10 (by omega)]
  · intro d hd
    rw [List.mem_reverse, List.mem_map] at hd
    obtain ⟨b, hb, rfl⟩ := hd
    exact digitOf_lt (hall b hb)
  · intro _
    simp only [List.map_cons, List.getLast_reverse, List.head_cons]
    exact fun hzero => hc (digitOf_eq_zero (hall c List.mem_cons_self) hzero)

theorem chars_eq_of_digits_eq {ds es : List Char} (hds : ∀ c ∈ ds, c.isDigit)
    (hes : ∀ c ∈ es, c.isDigit) (h : ds.map digitOf = es.map digitOf) : ds = es := by
  have hback : ∀ cs : List Char, (∀ c ∈ cs, c.isDigit) →
      (cs.map digitOf).map (fun n => Char.ofNat (n + '0'.toNat)) = cs := by
    intro cs hcs
    rw [List.map_map]
    exact (List.map_congr_left fun c hc => ofNat_digitOf (hcs c hc)).trans (List.map_id cs)
  rw [← hback ds hds, h, hback es hes]

/-- Only one text spells an index. -/
theorem readIndex?_inj {k l : String} {i : ℕ} (hk : readIndex? k = some i)
    (hl : readIndex? l = some i) : k = l := by
  obtain ⟨hkall, hkvalue, c, cs, hkeq, hkzero⟩ := digits_of_readIndex? hk
  obtain ⟨hlall, hlvalue, d, ds, hleq, hlzero⟩ := digits_of_readIndex? hl
  rw [hkeq] at hkall hkvalue
  rw [hleq] at hlall hlvalue
  have hpos : ∀ {b : Char} {bs : List Char}, (∀ e ∈ b :: bs, e.isDigit) → b ≠ '0' →
      digitsValue (b :: bs) ≠ 0 := by
    intro b bs hall hb hzero
    have hdigits := digits_digitsValue hall hb
    rw [hzero, Nat.digits_zero] at hdigits
    simp at hdigits
  refine String.toList_inj.mp ?_
  rw [hkeq, hleq]
  by_cases hc : c = '0'
  · by_cases hd : d = '0'
    · rw [hkzero hc, hlzero hd, hc, hd]
    · rw [hc, hkzero hc] at hkvalue
      exact absurd (hlvalue.trans hkvalue.symm) (hpos hlall hd)
  · by_cases hd : d = '0'
    · rw [hd, hlzero hd] at hlvalue
      exact absurd (hkvalue.trans hlvalue.symm) (hpos hkall hc)
    · refine chars_eq_of_digits_eq hkall hlall (List.reverse_inj.mp ?_)
      rw [← digits_digitsValue hkall hc, hkvalue, ← hlvalue, digits_digitsValue hlall hd]

end Number

/-! ### Tables -/

section Entries

variable {α : Type} {key k : String} {a b : α} {es : List (String × α)}

theorem mem_of_findEntry (h : findEntry key es = some a) : (key, a) ∈ es := by
  induction es with
  | nil => cases h
  | cons e es ih =>
      rw [findEntry] at h
      split at h
      · next hkey =>
        cases h
        exact hkey ▸ List.mem_cons_self
      · exact List.mem_cons_of_mem _ (ih h)

theorem findEntry_of_mem (hnodup : (es.map Prod.fst).Nodup) (h : (key, a) ∈ es) :
    findEntry key es = some a := by
  induction es with
  | nil => simp at h
  | cons e es ih =>
      rw [List.map_cons, List.nodup_cons] at hnodup
      rw [findEntry]
      rcases List.mem_cons.mp h with rfl | hmem
      · exact if_pos rfl
      · rw [if_neg, ih hnodup.2 hmem]
        exact fun hkey => hnodup.1 (hkey ▸ List.mem_map_of_mem hmem)

theorem mem_putEntry {e : String × α} (h : e ∈ putEntry key a es) : e = (key, a) ∨ e ∈ es := by
  induction es with
  | nil => exact .inl (List.mem_singleton.mp h)
  | cons f es ih =>
      rw [putEntry] at h
      split at h
      · next hkey =>
        rcases List.mem_cons.mp h with rfl | hmem
        · exact .inl (by rw [hkey])
        · exact .inr (List.mem_cons_of_mem _ hmem)
      · rcases List.mem_cons.mp h with rfl | hmem
        · exact .inr List.mem_cons_self
        · exact (ih hmem).imp id (List.mem_cons_of_mem _)

theorem findEntry_split (h : findEntry key es = some a) :
    ∃ rest, es.Perm ((key, a) :: rest) ∧
      ∀ k b, k ≠ key → findEntry k es = some b → (k, b) ∈ rest := by
  obtain ⟨before, after, rfl⟩ := List.append_of_mem (mem_of_findEntry h)
  refine ⟨before ++ after, List.perm_middle, fun k b hk hb => ?_⟩
  have hmem := mem_of_findEntry hb
  rw [List.mem_append, List.mem_cons] at hmem
  rcases hmem with hmem | hmem | hmem
  · exact List.mem_append_left _ hmem
  · cases hmem
    exact absurd rfl hk
  · exact List.mem_append_right _ hmem

end Entries

namespace Table

variable {α : Type} {t : Table α} {key k : String} {a b : α}

theorem mem_values_of_get? (h : t.get? key = some a) : a ∈ t.values :=
  List.mem_map_of_mem (f := Prod.snd) (mem_of_findEntry h)

theorem mem_values_insert (h : b ∈ (t.insert key a).values) : b = a ∨ b ∈ t.values := by
  obtain ⟨e, he, rfl⟩ := List.mem_map.mp h
  rcases mem_putEntry he with rfl | hmem
  · exact .inl rfl
  · exact .inr (List.mem_map_of_mem hmem)

theorem values_insert_subset (t : Table α) (key : String) (a : α) (vs : List α) :
    (t.insert key a).values ++ vs ⊆ a :: (t.values ++ vs) :=
  List.append_subset.mpr ⟨fun _ hb => List.mem_cons.mpr ((mem_values_insert hb).imp id
    (List.mem_append_left vs)), List.subset_cons_of_subset a (List.subset_append_right _ vs)⟩

theorem mem_values_erase (h : b ∈ (t.erase key).values) : b ∈ t.values := by
  obtain ⟨e, he, rfl⟩ := List.mem_map.mp h
  exact List.mem_map_of_mem (List.mem_filter.mp he).1

theorem values_split (h : t.get? key = some a) :
    ∃ rest, t.values.Perm (a :: rest) ∧ ∀ k b, k ≠ key → t.get? k = some b → b ∈ rest := by
  obtain ⟨rest, hperm, hrest⟩ := findEntry_split h
  refine ⟨rest.map Prod.snd, hperm.map Prod.snd, fun k b hk hb => ?_⟩
  exact List.mem_map_of_mem (f := Prod.snd) (hrest k b hk hb)

end Table

/-! ### Containers -/

namespace Body

variable {body : Body} {key k : String} {v w : Value}

theorem mem_children_of_child? (h : body.child? key = some v) : v ∈ body.children := by
  cases body with
  | date ms => cases h
  | list items =>
      obtain ⟨i, -, hi⟩ := Option.bind_eq_some_iff.mp h
      exact List.mem_of_getElem? hi
  | map entries => exact Table.mem_values_of_get? h
  | record cls fields => exact Table.mem_values_of_get? h

/-- Beside the child under one key stand the children under all other keys. -/
theorem children_split (h : body.child? key = some v) :
    ∃ siblings, body.children.Perm (v :: siblings) ∧
      ∀ k w, k ≠ key → body.child? k = some w → w ∈ siblings := by
  cases body with
  | date ms => cases h
  | map entries => exact Table.values_split h
  | record cls fields => exact Table.values_split h
  | list items =>
      obtain ⟨i, hkey, hi⟩ := Option.bind_eq_some_iff.mp h
      obtain ⟨hlt, rfl⟩ := List.getElem?_eq_some_iff.mp hi
      refine ⟨items.eraseIdx i, (List.getElem_cons_eraseIdx_perm hlt).symm, fun k w hk hw => ?_⟩
      obtain ⟨j, hjkey, hj⟩ := Option.bind_eq_some_iff.mp hw
      refine List.mem_eraseIdx_iff_getElem?.mpr ⟨j, fun hji => hk ?_, hj⟩
      exact Number.readIndex?_inj (hji ▸ hjkey) hkey

/-- `body'` differs from `body` in what one key leads to: it leads to what is in `new`, and the body
holds nothing else anew. -/
structure Differs (body : Body) (key : String) (new : List Value) (body' : Body) : Prop where
  kind : body'.kind = body.kind
  child : ∀ k, k ≠ key → body'.child? k = body.child? k
  children : ∀ c ∈ body'.children, c ∈ body.children ∨ c ∈ new
  present : ∀ v ∈ new, body'.child? key = some v

theorem differs_insert_fields (cls : Option Class) (fields : Table Value) (key : String)
    (v : Value) : (record cls fields).Differs key [v] (record cls (fields.insert key v)) where
  kind := rfl
  child k hk := (Table.get?_insert fields key k v).trans (if_neg hk)
  children _ hc := (Table.mem_values_insert hc).symm.imp id List.mem_singleton.mpr
  present := List.forall_mem_singleton.mpr ((Table.get?_insert fields key key v).trans (if_pos rfl))

theorem differs_insert_entry (entries : Table Value) (key : String) (v : Value) :
    (map entries).Differs key [v] (map (entries.insert key v)) where
  kind := rfl
  child k hk := (Table.get?_insert entries key k v).trans (if_neg hk)
  children _ hc := (Table.mem_values_insert hc).symm.imp id List.mem_singleton.mpr
  present :=
    List.forall_mem_singleton.mpr ((Table.get?_insert entries key key v).trans (if_pos rfl))

theorem differs_erase_entry (entries : Table Value) (key : String) :
    (map entries).Differs key [] (map (entries.erase key)) where
  kind := rfl
  child k hk := (Table.get?_erase entries key k).trans (if_neg hk)
  children _ hc := .inl (Table.mem_values_erase hc)
  present := nofun

theorem index_ne {i j : ℕ} (hkey : Number.readIndex? key = some i)
    (hk : Number.readIndex? k = some j) (hne : k ≠ key) : j ≠ i :=
  fun hji => hne (Number.readIndex?_inj (hji ▸ hk) hkey)

theorem differs_set_item (items : List Value) {i : ℕ} (hkey : Number.readIndex? key = some i)
    (hi : i < items.length) (v : Value) :
    (list items).Differs key [v] (list (items.set i v)) where
  kind := rfl
  child k hk := by
    rw [child?, child?]
    cases hj : Number.readIndex? k with
    | none => rfl
    | some j => exact List.getElem?_set_ne (index_ne hkey hj hk).symm
  children c hc := (List.mem_or_eq_of_mem_set hc).imp id List.mem_singleton.mpr
  present := List.forall_mem_singleton.mpr (by simp [child?, hkey, hi])

theorem differs_append_item (items : List Value)
    (hkey : Number.readIndex? key = some items.length) (v : Value) :
    (list items).Differs key [v] (list (items ++ [v])) where
  kind := rfl
  child k hk := by
    rw [child?, child?]
    cases hj : Number.readIndex? k with
    | none => rfl
    | some j =>
        have hne : j ≠ items.length := index_ne hkey hj hk
        show (items ++ [v])[j]? = items[j]?
        rcases Nat.lt_or_ge j items.length with hlt | hge
        · exact List.getElem?_append_left hlt
        · rw [List.getElem?_eq_none hge, List.getElem?_eq_none]
          rw [List.length_append, List.length_singleton]
          omega
  children c hc := List.mem_append.mp hc
  present := List.forall_mem_singleton.mpr (by simp [child?, hkey])

/-- What the assignment of a key does to a container: it sets a field of a record or an item of a
list, or it appends an item to a list. -/
inductive Assigned (key : String) (new : Value) : Body → Body → Prop
  | field (cls : Option Class) (fields : Table Value) :
      Assigned key new (record cls fields) (record cls (fields.insert key new))
  | item {items : List Value} {i : ℕ} (index : Number.readIndex? key = some i)
      (lt : i < items.length) : Assigned key new (list items) (list (items.set i new))
  | append {items : List Value} (index : Number.readIndex? key = some items.length) :
      Assigned key new (list items) (list (items ++ [new]))

theorem Assigned.differs {body' : Body} (h : Assigned key v body body') :
    body.Differs key [v] body' := by
  cases h with
  | field cls fields => exact differs_insert_fields cls fields key v
  | item index lt => exact differs_set_item _ index lt v
  | append index => exact differs_append_item _ index v

theorem property_cases (body : Body) (key : String) :
    (∃ a, body.property key = .scalar a) ∨ body.property key ∈ body.children := by
  have hchild : ∀ o : Option Value, (∀ v, o = some v → v ∈ body.children) →
      (∃ a, o.getD .undefined = .scalar a) ∨ o.getD .undefined ∈ body.children := by
    intro o ho
    cases o with
    | none => exact .inl ⟨_, rfl⟩
    | some v => exact .inr (ho v rfl)
  cases body with
  | date ms => exact .inl ⟨_, rfl⟩
  | map entries =>
      rw [property]
      split
      · exact .inl ⟨_, rfl⟩
      · exact .inl ⟨_, rfl⟩
  | record cls fields => exact hchild _ fun v hv => mem_children_of_child? hv
  | list items =>
      rw [property, get?]
      · split
        · exact .inl ⟨_, rfl⟩
        · exact hchild _ fun v hv => mem_children_of_child? hv
      · exact nofun

end Body

namespace Store

variable (st : Store) (v : Value) (key : String)

/-- What is read off a value is a scalar or a child of the value. -/
theorem property_cases : (∃ a, st.property v key = .scalar a) ∨
    ∃ r, v = .node r ∧ st.property v key ∈ st.children r := by
  cases v with
  | scalar a =>
      rw [property, Scalar.get?.eq_def]
      split
      · split <;> exact .inl ⟨_, rfl⟩
      · exact .inl ⟨_, rfl⟩
  | node r => exact (Body.property_cases (st.body r) key).imp id fun h => ⟨r, rfl, h⟩

theorem mapEntry_cases : (∃ a, st.mapEntry v key = .scalar a) ∨
    ∃ r, v = .node r ∧ st.mapEntry v key ∈ st.children r := by
  cases v with
  | scalar a => exact .inl ⟨_, rfl⟩
  | node r =>
      have hcases : (∃ a, st.mapEntry (.node r) key = .scalar a) ∨
          st.mapEntry (.node r) key ∈ st.children r := by
        rw [mapEntry, mapEntries?, children]
        cases st.body r with
        | date ms => exact .inl ⟨_, rfl⟩
        | list items => exact .inl ⟨_, rfl⟩
        | record cls fields => exact .inl ⟨_, rfl⟩
        | map entries =>
            cases hget : entries.get? key with
            | none => exact .inl ⟨.undefined, by simp [hget]⟩
            | some w =>
                refine .inr ?_
                simpa [hget, Body.children] using Table.mem_values_of_get? hget
      exact hcases.imp id fun h => ⟨r, rfl, h⟩

end Store

end PathCopy
