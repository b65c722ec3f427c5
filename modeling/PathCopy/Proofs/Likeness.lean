import PathCopy.Proofs.Children
import PathCopy.Proofs.Depth
import PathCopy.Proofs.Pointwise

/-!
Likeness of stores. A relation between the values of two stores is a likeness if it relates a scalar
to itself only, and a node to nodes whose contents are of the same form and hold related values.
Whatever is read of a value is then read of every value that is related to it.
-/

namespace PathCopy

/-! ### Contents that match -/

def Table.Match {α β : Type} (R : α → β → Prop) (t : Table α) (u : Table β) : Prop :=
  List.Forall₂ (fun a e => e.1 = a.1 ∧ R a.2 e.2) t.entries u.entries

/-- The contents are of the same form and hold related values at the same places. -/
inductive Body.Match (R : Value → Value → Prop) : Body → Body → Prop
  | date (ms : Int) : Match R (.date ms) (.date ms)
  | list {items items' : List Value} (items_match : List.Forall₂ R items items') :
      Match R (.list items) (.list items')
  | map {entries entries' : Table Value} (entries_match : entries.Match R entries') :
      Match R (.map entries) (.map entries')
  | record (cls : Option Class) {fields fields' : Table Value}
      (fields_match : fields.Match R fields') : Match R (.record cls fields) (.record cls fields')

namespace Table.Match

variable {α β : Type} {R S : α → β → Prop} {t : Table α} {u : Table β} {a : α} {b : β}

theorem keys (h : t.Match R u) : u.keys = t.keys := keys_eq_of_forall₂ h

theorem size (h : t.Match R u) : u.size = t.size := (List.Forall₂.length_eq h).symm

theorem contains (h : t.Match R u) (k : String) : u.contains k = t.contains k := by
  rw [Bool.eq_iff_iff, Table.contains, Table.contains, get?, get?, isSome_findEntry_iff,
    isSome_findEntry_iff, keys_eq_of_forall₂ h]

theorem get? (h : t.Match R u) (k : String) : Option.Rel R (t.get? k) (u.get? k) := by
  have hfind : ∀ as es, List.Forall₂ (fun a e => e.1 = a.1 ∧ R a.2 e.2) as es →
      Option.Rel R (findEntry k as) (findEntry k es) := by
    intro as es h
    induction h with
    | nil => exact .none
    | cons he _ ih =>
        rw [findEntry, findEntry, he.1]
        split
        · exact .some he.2
        · exact ih
  exact hfind _ _ h

theorem values (h : t.Match R u) : List.Forall₂ R t.values u.values := by
  rw [Table.values, Table.values, List.forall₂_map_left_iff, List.forall₂_map_right_iff]
  exact h.imp fun _ _ => And.right

theorem symm (h : t.Match R u) : u.Match (fun b a => R a b) t :=
  h.flip.imp fun _ _ he => ⟨he.1.symm, he.2⟩

theorem mono (h : t.Match R u) (himp : ∀ x ∈ t.values, ∀ y ∈ u.values, R x y → S x y) :
    t.Match S u :=
  forall₂_imp_mem h fun _ ha _ hb hab =>
    ⟨hab.1, himp _ (List.mem_map_of_mem ha) _ (List.mem_map_of_mem hb) hab.2⟩

theorem empty : (Table.empty : Table α).Match R Table.empty := .nil

theorem insert (h : t.Match R u) (k : String) (hab : R a b) :
    (t.insert k a).Match R (u.insert k b) :=
  forall₂_putEntry h hab

theorem erase (h : t.Match R u) (k : String) : (t.erase k).Match R (u.erase k) :=
  forall₂_filter_ne h

theorem insertAll {as : List (String × α)} {es : List (String × β)} (h : t.Match R u)
    (hes : List.Forall₂ (fun a e => e.1 = a.1 ∧ R a.2 e.2) as es) :
    (t.insertAll as).Match R (u.insertAll es) := by
  induction hes generalizing t u with
  | nil => exact h
  | @cons a e as es he _ ih =>
      rw [Table.insertAll, Table.insertAll, List.foldl_cons, List.foldl_cons, he.1]
      exact ih (h.insert a.1 he.2)

theorem ofList {as : List (String × α)} {es : List (String × β)}
    (hes : List.Forall₂ (fun a e => e.1 = a.1 ∧ R a.2 e.2) as es) :
    (Table.ofList as).Match R (Table.ofList es) :=
  empty.insertAll hes

end Table.Match

namespace Body.Match

variable {R S : Value → Value → Prop} {b b' : Body} {v w : Value}

theorem kind (h : b.Match R b') : b'.kind = b.kind := by
  cases h <;> rfl

theorem children (h : b.Match R b') : List.Forall₂ R b.children b'.children := by
  cases h with
  | date ms => exact .nil
  | list hitems => exact hitems
  | map hentries => exact hentries.values
  | record cls hfields => exact hfields.values

theorem mono (h : b.Match R b')
    (himp : ∀ c ∈ b.children, ∀ d ∈ b'.children, R c d → S c d) : b.Match S b' := by
  cases h with
  | date ms => exact .date ms
  | list hitems => exact .list (forall₂_imp_mem hitems himp)
  | map hentries => exact .map (hentries.mono himp)
  | record cls hfields => exact .record cls (hfields.mono himp)

theorem symm (h : b.Match R b') : b'.Match (fun w v => R v w) b := by
  cases h with
  | date ms => exact .date ms
  | list hitems => exact .list hitems.flip
  | map hentries => exact .map hentries.symm
  | record cls hfields => exact .record cls hfields.symm

theorem child? (h : b.Match R b') (k : String) : Option.Rel R (b.child? k) (b'.child? k) := by
  cases h with
  | date ms => exact .none
  | map hentries => exact hentries.get? k
  | record cls hfields => exact hfields.get? k
  | list hitems =>
      rw [Body.child?, Body.child?]
      cases Number.readIndex? k with
      | none => exact .none
      | some i => exact rel_getElem? hitems i

theorem property (h : b.Match R b') (hscalar : ∀ a, R (.scalar a) (.scalar a)) (k : String) :
    R (b.property k) (b'.property k) := by
  have hgetD : ∀ {o o' : Option Value}, Option.Rel R o o' →
      R (o.getD .undefined) (o'.getD .undefined) := by
    intro o o' ho
    cases ho with
    | none => exact hscalar _
    | some hvw => exact hvw
  have hchild := hgetD (h.child? k)
  cases h with
  | date ms => exact hscalar _
  | map hentries =>
      rw [Body.property, Body.property, hentries.size]
      split
      · exact hscalar _
      · exact hscalar _
  | record cls hfields => exact hchild
  | list hitems =>
      show R ((Body.get? k (.list _)).getD _) ((Body.get? k (.list _)).getD _)
      rw [Body.get?, Body.get?, hitems.length_eq]
      split
      · exact hscalar _
      · exact hchild

end Body.Match

/-! ### Values that are read alike -/

def Value.scalar? : Value → Option Scalar
  | .scalar a => some a
  | .node _ => none

theorem key?_eq {v w : Value} (h : w.scalar? = v.scalar?) : w.key? = v.key? := by
  cases v with
  | scalar a =>
      cases w with
      | scalar b =>
          cases h
          rfl
      | node s => cases h
  | node r =>
      cases w with
      | scalar b => cases h
      | node s => rfl

namespace Store

/-- The relation pairs scalars with themselves, and nodes with nodes that hold related values. -/
structure Likeness (st st' : Store) (R : Value → Value → Prop) : Prop where
  refl : ∀ a, R (.scalar a) (.scalar a)
  scalar : ∀ {a w}, R (.scalar a) w → w = .scalar a
  node : ∀ {r w}, R (.node r) w → ∃ s, w = .node s ∧ (st.body r).Match R (st'.body s)

namespace Likeness

variable {st st' : Store} {R : Value → Value → Prop} {u v w : Value} {n : ℕ}

/-- What is related is the same scalar, or nodes with contents that match. -/
theorem cases (h : Likeness st st' R) (hvw : R v w) :
    (∃ a, v = .scalar a ∧ w = .scalar a) ∨
      ∃ r s, v = .node r ∧ w = .node s ∧ (st.body r).Match R (st'.body s) := by
  cases v with
  | scalar a => exact .inl ⟨a, rfl, h.scalar hvw⟩
  | node r =>
      obtain ⟨s, rfl, hmatch⟩ := h.node hvw
      exact .inr ⟨r, s, rfl, rfl, hmatch⟩

theorem symm (h : Likeness st st' R) : Likeness st' st fun w v => R v w where
  refl := h.refl
  scalar {a v} hvw := by
    obtain ⟨b, rfl, heq⟩ | ⟨r, s, -, heq, -⟩ := h.cases hvw
    · exact heq.symm
    · cases heq
  node {s v} hvw := by
    obtain ⟨b, -, heq⟩ | ⟨r, s', rfl, heq, hmatch⟩ := h.cases hvw
    · cases heq
    · cases heq
      exact ⟨r, rfl, hmatch.symm⟩

theorem scalar? (h : Likeness st st' R) (hvw : R v w) : w.scalar? = v.scalar? := by
  obtain ⟨a, rfl, rfl⟩ | ⟨r, s, rfl, rfl, -⟩ := h.cases hvw <;> rfl

theorem kind (h : Likeness st st' R) (hvw : R v w) : st'.kind w = st.kind v := by
  obtain ⟨a, rfl, rfl⟩ | ⟨r, s, rfl, rfl, hmatch⟩ := h.cases hvw
  · rfl
  · exact hmatch.kind

theorem property (h : Likeness st st' R) (hvw : R v w) (k : String) :
    R (st.property v k) (st'.property w k) := by
  obtain ⟨a, rfl, rfl⟩ | ⟨r, s, rfl, rfl, hmatch⟩ := h.cases hvw
  · rw [Store.property, Store.property, Scalar.get?.eq_def]
    split
    · split
      · exact h.refl _
      · exact h.refl _
    · exact h.refl _
  · exact hmatch.property h.refl k

theorem mapEntries? (h : Likeness st st' R) (hvw : R v w) :
    Option.Rel (Table.Match R) (st.mapEntries? v) (st'.mapEntries? w) := by
  obtain ⟨a, rfl, rfl⟩ | ⟨r, s, rfl, rfl, hmatch⟩ := h.cases hvw
  · exact .none
  · rw [Store.mapEntries?, Store.mapEntries?]
    generalize st.body r = b, st'.body s = b' at hmatch ⊢
    cases hmatch with
    | map hentries => exact .some hentries
    | date ms => exact .none
    | list hitems => exact .none
    | record cls hfields => exact .none

theorem mapEntry (h : Likeness st st' R) (hvw : R v w) (k : String) :
    R (st.mapEntry v k) (st'.mapEntry w k) := by
  have hentries := h.mapEntries? hvw
  rw [Store.mapEntry, Store.mapEntry]
  generalize st.mapEntries? v = t at hentries ⊢
  generalize st'.mapEntries? w = t' at hentries ⊢
  cases hentries with
  | none => exact h.refl _
  | @some t t' ht =>
      have hget := ht.get? k
      rw [Option.bind_some, Option.bind_some]
      generalize t.get? k = o at hget ⊢
      generalize t'.get? k = o' at hget ⊢
      cases hget with
      | none => exact h.refl _
      | some hcd => exact hcd

theorem toNumber (h : Likeness st st' R) (hvw : R v w) : st'.toNumber w = st.toNumber v := by
  obtain ⟨a, rfl, rfl⟩ | ⟨r, s, rfl, rfl, hmatch⟩ := h.cases hvw
  · rfl
  · rw [Store.toNumber, Store.toNumber]
    generalize st.body r = b, st'.body s = b' at hmatch ⊢
    cases hmatch <;> rfl

/-! ### Going down -/

/-- A way down from a value is also one from every value that is related to it. -/
theorem reaches (h : Likeness st st' R) (hvw : R v w) (hu : st.Reaches v u) :
    ∃ u', R u u' ∧ st'.Reaches w u' := by
  induction hu with
  | refl => exact ⟨w, hvw, reaches_refl _ _⟩
  | tail _ hstep ih =>
      obtain ⟨r, rfl, hc⟩ := hstep
      obtain ⟨w', hw', hreach⟩ := ih
      obtain ⟨s, rfl, hmatch⟩ := h.node hw'
      obtain ⟨d, hd, hcd⟩ := exists_of_forall₂ hmatch.children hc
      exact ⟨d, hcd, hreach.trans (reaches_of_mem_children hd)⟩

theorem shallow (h : Likeness st st' R) (hvw : R v w) (hv : st.Shallow n v) : st'.Shallow n w := by
  induction n generalizing v w with
  | zero =>
      obtain ⟨a, rfl, rfl⟩ | ⟨r, s, rfl, rfl, -⟩ := h.cases hvw
      · trivial
      · exact hv.elim
  | succ n ih =>
      obtain ⟨a, rfl, rfl⟩ | ⟨r, s, rfl, rfl, hmatch⟩ := h.cases hvw
      · trivial
      · intro d hd
        obtain ⟨c, hc, hcd⟩ := exists_of_forall₂ hmatch.children.flip hd
        exact ih hcd (hv c hc)

theorem founded (h : Likeness st st' R) (hvw : R v w) (hv : st.Founded v) : st'.Founded w :=
  hv.imp fun _ => h.shallow hvw

theorem joinedTo (h : Likeness st st' R) (hvw : R v w) :
    st'.joinedTo n w = st.joinedTo n v := by
  induction n generalizing v w with
  | zero =>
      obtain ⟨a, rfl, rfl⟩ | ⟨r, s, rfl, rfl, -⟩ := h.cases hvw
      · rw [Store.joinedTo, Store.joinedTo]
      · rw [Store.joinedTo, Store.joinedTo]
  | succ n ih =>
      obtain ⟨a, rfl, rfl⟩ | ⟨r, s, rfl, rfl, hmatch⟩ := h.cases hvw
      · rw [Store.joinedTo, Store.joinedTo]
      · rw [Store.joinedTo, Store.joinedTo]
        generalize st.body r = b, st'.body s = b' at hmatch ⊢
        cases hmatch with
        | date ms => rfl
        | map hentries => rfl
        | record cls hfields => rfl
        | list hitems =>
            rw [Body.joined, Body.joined]
            refine congrArg _ (Eq.symm ?_)
            rw [← List.forall₂_eq_eq_eq, List.forall₂_map_left_iff, List.forall₂_map_right_iff]
            refine hitems.imp fun c d hcd => ?_
            have heq := ih hcd
            obtain ⟨a, rfl, rfl⟩ | ⟨r, s, rfl, rfl, -⟩ := h.cases hcd
            · cases a <;> first | rfl | exact heq.symm
            · exact heq.symm

/-- Both stores see all of the value, though they may differ in size. -/
theorem joined (h : Likeness st st' R) (hvw : R v w) (hv : st.Founded v)
    (hindex : ∀ r, st.Reaches v (.node r) → r.index < st.size)
    (hindex' : ∀ r, st'.Reaches w (.node r) → r.index < st'.size) :
    st'.joined w = st.joined v := by
  have hshallow := hv.shallow_size hindex
  have hshallow' := (h.founded hvw hv).shallow_size hindex'
  rw [Store.joined, Store.joined, ← h.joinedTo hvw]
  rcases Nat.le_total st.size st'.size with hle | hle
  · exact (h.shallow hvw hshallow).joinedTo_eq hle
  · exact (hshallow'.joinedTo_eq hle).symm

end Likeness

end Store

end PathCopy
