import PathCopy.Proofs.Copies
import PathCopy.Proofs.Mirror
import PathCopy.Proofs.Pointwise

/-!
Values as trees. A template describes a value if it builds the same tree anew; every founded value
is described by its own template. The deep copy of a value is built from this template, so it has a
node of its own for every place of the tree. Two values are alike if
they are the same tree, whatever their nodes are.
-/

namespace PathCopy

/-! ### Likeness -/

/-- What a node holds, apart from the values of its children. -/
inductive Shape
  | date (milliseconds : Int)
  | list (length : ℕ)
  | map (keys : List String)
  | record (cls : Option Class) (keys : List String)

def Body.shape : Body → Shape
  | date ms => .date ms
  | list items => .list items.length
  | map entries => .map entries.keys
  | record cls fields => .record cls fields.keys

/-- The values are the same scalar, or nodes of one shape whose children are alike in order. -/
inductive Alike (st st' : Store) : Value → Value → Prop
  | scalar (a : Scalar) : Alike st st' (.scalar a) (.scalar a)
  | node {r s : Ref} (shape : (st.body r).shape = (st'.body s).shape)
      (children : List.Forall₂ (Alike st st') (st.children r) (st'.children s)) :
      Alike st st' (.node r) (.node s)

/-- Contents match if they have the same shape and related children. -/
theorem Body.match_iff {R : Value → Value → Prop} {b b' : Body} :
    b.Match R b' ↔ b.shape = b'.shape ∧ List.Forall₂ R b.children b'.children := by
  have htable : ∀ {t u : Table Value}, t.keys = u.keys → List.Forall₂ R t.values u.values →
      t.Match R u := fun hkeys hvalues => forall₂_entries_iff.mpr ⟨hkeys.symm, hvalues⟩
  constructor
  · refine fun h => ⟨?_, h.children⟩
    cases h with
    | date ms => rfl
    | list hitems => exact congrArg Shape.list hitems.length_eq
    | map hentries => exact congrArg Shape.map hentries.keys.symm
    | record cls hfields => exact congrArg (Shape.record cls) hfields.keys.symm
  · rintro ⟨hshape, hchildren⟩
    cases b <;> cases b' <;> simp only [Body.shape, reduceCtorEq, Shape.date.injEq,
      Shape.list.injEq, Shape.map.injEq, Shape.record.injEq] at hshape
    case date.date => exact hshape ▸ .date _
    case list.list => exact .list hchildren
    case map.map => exact .map (htable hshape hchildren)
    case record.record =>
        obtain ⟨rfl, hkeys⟩ := hshape
        exact .record _ (htable hkeys hchildren)

open Store

/-- Likeness is the largest likeness of two stores, and every founded value has its likes. -/
theorem Store.likeness_alike (st st' : Store) : Likeness st st' (Alike st st') where
  refl := .scalar
  scalar h := by
    cases h
    rfl
  node h := by
    cases h with
    | @node r s hshape hchildren => exact ⟨s, rfl, Body.match_iff.mpr ⟨hshape, hchildren⟩⟩

theorem Store.Likeness.alike {st st' : Store} {R : Value → Value → Prop} {v w : Value}
    (h : Likeness st st' R) (hv : st.Founded v) (hvw : R v w) : Alike st st' v w := by
  obtain ⟨n, hn⟩ := hv
  induction n generalizing v w with
  | zero =>
      obtain ⟨a, rfl, rfl⟩ | ⟨r, s, rfl, rfl, -⟩ := h.cases hvw
      · exact .scalar a
      · exact hn.elim
  | succ n ih =>
      obtain ⟨a, rfl, rfl⟩ | ⟨r, s, rfl, rfl, hmatch⟩ := h.cases hvw
      · exact .scalar a
      · obtain ⟨hshape, hchildren⟩ := Body.match_iff.mp hmatch
        exact .node hshape (forall₂_imp_mem hchildren fun c hc d _ hcd => ih hcd (hn c hc))

/-- A value is like its image in a store that mirrors its own. -/
theorem Store.Mirror.alike {φ : Ref → Ref} {st st' : Store} {roots : List Value} {v : Value}
    (h : Mirror φ st st' roots) (hv : st.Within roots v) : Alike st st' v (v.rename φ) :=
  h.likeness.alike (hv.founded fun _ => h.founded) ⟨hv, rfl⟩

/-! ### Descriptions -/

mutual

/-- Building the template makes the tree that the value is. -/
def Template.Describes (st : Store) : Template → Value → Prop
  | .scalar a, v => v = .scalar a
  | .date ms, v => ∃ r, v = .node r ∧ st.body r = .date ms
  | .list ts, v => ∃ r items, v = .node r ∧ st.body r = .list items ∧
      Template.DescribesList st ts items
  | .map es, v => ∃ r entries, v = .node r ∧ st.body r = .map entries ∧
      Template.DescribesEntries st es entries.entries
  | .ofClass cls es, v => ∃ r fields, v = .node r ∧ st.body r = .record cls fields ∧
      Template.DescribesEntries st es fields.entries

def Template.DescribesList (st : Store) : List Template → List Value → Prop
  | [], vs => vs = []
  | t :: ts, vs => ∃ v rest, vs = v :: rest ∧ t.Describes st v ∧ Template.DescribesList st ts rest

def Template.DescribesEntries (st : Store) :
    List (String × Template) → List (String × Value) → Prop
  | [], es => es = []
  | (k, t) :: ts, es => ∃ v rest, es = (k, v) :: rest ∧ t.Describes st v ∧
      Template.DescribesEntries st ts rest

end

namespace Template

variable {st st' : Store} {t : Template} {v : Value}

theorem describesList_iff {ts : List Template} {vs : List Value} :
    DescribesList st ts vs ↔ List.Forall₂ (Describes st) ts vs := by
  induction ts generalizing vs with
  | nil => simp [DescribesList, List.forall₂_nil_left_iff]
  | cons t ts ih => simp [DescribesList, List.forall₂_cons_left_iff, ih]; tauto

theorem describesEntries_iff {ts : List (String × Template)} {es : List (String × Value)} :
    DescribesEntries st ts es ↔
      List.Forall₂ (fun e f => f.1 = e.1 ∧ e.2.Describes st f.2) ts es := by
  induction ts generalizing es with
  | nil => simp [DescribesEntries, List.forall₂_nil_left_iff]
  | cons t ts ih => simp [DescribesEntries, List.forall₂_cons_left_iff, ih]; tauto

theorem describes_scalar (st : Store) (a : Scalar) :
    (Template.scalar a).Describes st (.scalar a) := rfl

theorem Describes.scalar_inv {a : Scalar} (h : t.Describes st (.scalar a)) : t = .scalar a := by
  cases t with
  | scalar b =>
      cases h
      rfl
  | date ms => obtain ⟨r, ⟨⟩, -⟩ := h
  | list ts => obtain ⟨r, items, ⟨⟩, -⟩ := h
  | map es => obtain ⟨r, entries, ⟨⟩, -⟩ := h
  | ofClass cls es => obtain ⟨r, fields, ⟨⟩, -⟩ := h

/-- A template that describes a node is of the sort of the node. -/
theorem Describes.node_inv {r : Ref} (h : t.Describes st (.node r)) :
    match st.body r with
    | .date ms => t = .date ms
    | .list items => ∃ ts, t = .list ts ∧ DescribesList st ts items
    | .map entries => ∃ es, t = .map es ∧ DescribesEntries st es entries.entries
    | .record cls fields => ∃ es, t = .ofClass cls es ∧ DescribesEntries st es fields.entries := by
  cases t with
  | scalar a => cases h
  | date ms =>
      obtain ⟨s, ⟨⟩, hbody⟩ := h
      rw [hbody]
  | list ts =>
      obtain ⟨s, items, ⟨⟩, hbody, hts⟩ := h
      rw [hbody]
      exact ⟨ts, rfl, hts⟩
  | map es =>
      obtain ⟨s, entries, ⟨⟩, hbody, hes⟩ := h
      rw [hbody]
      exact ⟨es, rfl, hes⟩
  | ofClass cls es =>
      obtain ⟨s, fields, ⟨⟩, hbody, hes⟩ := h
      rw [hbody]
      exact ⟨es, rfl, hes⟩

/-- A description lasts as long as nothing changes below the value. -/
theorem Describes.agree (h : t.Describes st v) (hagree : st.AgreeBelow st' v) :
    t.Describes st' v := by
  -- Maps and records have entries, which are treated alike.
  have hentries : ∀ {r : Ref} {es : List (String × Template)} {table : Table Value},
      (∀ e ∈ es, ∀ {v}, e.2.Describes st v → st.AgreeBelow st' v → e.2.Describes st' v) →
      st.AgreeBelow st' (.node r) → st.children r = table.values →
      DescribesEntries st es table.entries → DescribesEntries st' es table.entries := by
    intro r es table ih hr hchildren hes
    refine describesEntries_iff.mpr (forall₂_imp_mem (describesEntries_iff.mp hes) ?_)
    rintro e he f hf ⟨hkey, hf'⟩
    exact ⟨hkey, ih e he hf' (hr.child (hchildren ▸ List.mem_map_of_mem hf))⟩
  induction t using Template.induct generalizing v with
  | scalar a => exact h
  | date ms =>
      obtain ⟨r, rfl, hbody⟩ := h
      exact ⟨r, rfl, hagree.body_eq.trans hbody⟩
  | list ts ih =>
      obtain ⟨r, items, rfl, hbody, hitems⟩ := h
      refine ⟨r, items, rfl, hagree.body_eq.trans hbody, describesList_iff.mpr ?_⟩
      refine forall₂_imp_mem (describesList_iff.mp hitems) fun t ht c hc hdescribes => ?_
      refine ih t ht hdescribes (hagree.child ?_)
      rwa [children, hbody]
  | map es ih =>
      obtain ⟨r, entries, rfl, hbody, hes⟩ := h
      refine ⟨r, entries, rfl, hagree.body_eq.trans hbody, hentries ih hagree ?_ hes⟩
      rw [children, hbody, Body.children]
  | ofClass cls es ih =>
      obtain ⟨r, fields, rfl, hbody, hes⟩ := h
      refine ⟨r, fields, rfl, hagree.body_eq.trans hbody, hentries ih hagree ?_ hes⟩
      rw [children, hbody, Body.children]

end Template

/-! ### The template of a value -/

/-- The template of a node, where `inner` gives those of its children. -/
def Body.template (inner : Value → Template) : Body → Template
  | date ms => .date ms
  | list items => .list (items.map inner)
  | map entries => .map (entries.map inner).entries
  | record cls fields => .ofClass cls (fields.map inner).entries

/-- The contents are not those of an instance of a class. -/
def Body.plain : Body → Bool
  | record (some _) _ => false
  | _ => true

namespace Store

/-- The template of a value down to `depth` levels of nodes. -/
def templateTo (st : Store) : ℕ → Value → Template
  | _, .scalar a => .scalar a
  | 0, .node _ => .scalar .undefined
  | depth + 1, .node r => (st.body r).template (st.templateTo depth)

/-- A complete copy of a value that shares no node with anything. -/
def deepCopy (st : Store) (v : Value) : Value × Store := (st.templateTo st.size v).build st

/-- The value holds no instance of a class. -/
def ClassFree (st : Store) (v : Value) : Prop :=
  ∀ r cls fields, st.Reaches v (.node r) → st.body r = .record cls fields → cls = none

variable {st : Store} {n : ℕ} {v : Value} {r : Ref}

theorem ClassFree.child {c : Value} (h : st.ClassFree (.node r)) (hc : c ∈ st.children r) :
    st.ClassFree c :=
  fun s cls fields hs => h s cls fields ((reaches_of_mem_children hc).trans hs)

theorem classFree_of_plain (h : ∀ i < st.size, (st.body ⟨i⟩).plain) : st.ClassFree v := by
  rintro ⟨i⟩ cls fields - hbody
  cases cls with
  | none => rfl
  | some c =>
      by_cases hi : i < st.size
      · have hplain := h i hi
        rw [hbody] at hplain
        cases hplain
      · rw [body, node_of_size_le st ⟨i⟩ (Nat.le_of_not_lt hi)] at hbody
        cases hbody

theorem describes_templateTo (h : st.Shallow n v) : (st.templateTo n v).Describes st v := by
  -- The induction is on the depth down to which the value is read.
  induction n generalizing v with
  | zero =>
      cases v with
      | scalar a => rfl
      | node r => exact h.elim
  | succ n ih =>
      cases v with
      | scalar a => rfl
      | node r =>
          have hchild : ∀ c ∈ st.children r, (st.templateTo n c).Describes st c := fun c hc =>
            ih (h c hc)
          have hentries : ∀ {table : Table Value}, st.children r = table.values →
              Template.DescribesEntries st (table.map (st.templateTo n)).entries table.entries := by
            intro table htable
            rw [Template.describesEntries_iff, Table.entries_map, List.forall₂_map_left_iff,
              List.forall₂_same]
            exact fun e he => ⟨rfl, hchild e.2 (htable ▸ List.mem_map_of_mem he)⟩
          rw [templateTo]
          cases hbody : st.body r with
          | date ms => exact ⟨r, rfl, hbody⟩
          | list items =>
              refine ⟨r, items, rfl, hbody, Template.describesList_iff.mpr ?_⟩
              rw [List.forall₂_map_left_iff, List.forall₂_same]
              exact fun c hc => hchild c (by rwa [children, hbody])
          | map entries =>
              refine ⟨r, entries, rfl, hbody, hentries ?_⟩
              rw [children, hbody, Body.children]
          | record cls fields =>
              refine ⟨r, fields, rfl, hbody, hentries ?_⟩
              rw [children, hbody, Body.children]

/-! ### Building -/

/-- Nodes made since `st₁`: each is unfrozen, holds nodes with a number from `low` on that were made
before it, and has an image in `st'` within the roots. -/
structure Sprouts (st' : Store) (roots : List Value) (low : ℕ) (φ : Ref → Ref) (st₁ st₂ : Store) :
    Prop where
  size_le : st₁.size ≤ st₂.size
  node_eq : ∀ {r : Ref}, r.index < st₁.size → st₂.node r = st₁.node r
  unfrozen : ∀ {r : Ref}, st₁.size ≤ r.index → r.index < st₂.size → (st₂.node r).frozen = false
  children : ∀ {r : Ref}, st₁.size ≤ r.index → ∀ {s : Ref}, .node s ∈ st₂.children r →
    low ≤ s.index ∧ s.index < r.index
  body : ∀ {r : Ref}, st₁.size ≤ r.index → r.index < st₂.size →
    st'.body (φ r) = (st₂.body r).rename φ
  target : ∀ {r : Ref}, st₁.size ≤ r.index → r.index < st₂.size → st'.Within roots (.node (φ r))

/-- A scalar, or a node with a number from `low` on; its image is `x`. -/
structure Sprout (low : ℕ) (φ : Ref → Ref) (st : Store) (v x : Value) : Prop where
  image : x = v.rename φ
  index : ∀ {s : Ref}, v = .node s → low ≤ s.index ∧ s.index < st.size

section Sprouts

variable {st' st₁ st₂ st₃ : Store} {roots : List Value} {low : ℕ} {φ ψ : Ref → Ref} {s : Ref}
  {body : Body} {x : Value}

theorem sprouts_refl (st' : Store) (roots : List Value) (low : ℕ) (φ : Ref → Ref) (st₁ : Store) :
    st'.Sprouts roots low φ st₁ st₁ where
  size_le := Nat.le_refl _
  node_eq _ := rfl
  unfrozen hr hlt := absurd hlt (Nat.not_lt_of_le hr)
  children hr _ hs := by
    rw [children_of_size_le hr] at hs
    simp at hs
  body hr hlt := absurd hlt (Nat.not_lt_of_le hr)
  target hr hlt := absurd hlt (Nat.not_lt_of_le hr)

theorem Sprouts.body_eq {r : Ref} (h : st'.Sprouts roots low φ st₁ st₂) (hr : r.index < st₁.size) :
    st₂.body r = st₁.body r := by
  rw [Store.body, h.node_eq hr, Store.body]

theorem Sprouts.trans (h : st'.Sprouts roots low φ st₁ st₂) (h' : st'.Sprouts roots low ψ st₂ st₃)
    (hagree : ∀ r : Ref, r.index < st₂.size → ψ r = φ r) : st'.Sprouts roots low ψ st₁ st₃ where
  size_le := h.size_le.trans h'.size_le
  node_eq hr := (h'.node_eq (Nat.lt_of_lt_of_le hr h.size_le)).trans (h.node_eq hr)
  unfrozen {r} hr hlt := by
    rcases Nat.lt_or_ge r.index st₂.size with hold | hnew
    · rw [h'.node_eq hold, h.unfrozen hr hold]
    · exact h'.unfrozen hnew hlt
  children {r} hr {s} hs := by
    rcases Nat.lt_or_ge r.index st₂.size with hold | hnew
    · rw [Store.children, h'.body_eq hold] at hs
      exact h.children hr hs
    · exact h'.children hnew hs
  body {r} hr hlt := by
    rcases Nat.lt_or_ge r.index st₂.size with hold | hnew
    · rw [hagree r hold, h.body hr hold, h'.body_eq hold]
      refine Body.rename_congr fun c hc => ?_
      cases c with
      | scalar a => rfl
      | node s =>
          have hs := (h.children hr hc).2
          exact congrArg Value.node (hagree s (hs.trans hold)).symm
    · exact h'.body hnew hlt
  target {r} hr hlt := by
    rcases Nat.lt_or_ge r.index st₂.size with hold | hnew
    · rw [hagree r hold]
      exact h.target hr hold
    · exact h'.target hnew hlt

theorem Sprout.later {v : Value} (h : Sprout low φ st₂ v x) (hsize : st₂.size ≤ st₃.size)
    (hagree : ∀ r : Ref, r.index < st₂.size → ψ r = φ r) : Sprout low ψ st₃ v x := by
  refine ⟨h.image.trans ?_, fun hs => ⟨(h.index hs).1, (h.index hs).2.trans_le hsize⟩⟩
  cases v with
  | scalar a => rfl
  | node s => exact congrArg Value.node (hagree s (h.index rfl).2).symm

theorem Sprouts.alloc (h : st'.Sprouts roots low φ st₁ st₂) (hlow : low ≤ st₁.size)
    (hs : st'.Within roots (.node s)) (hbody : st'.body s = body.rename φ)
    (hchildren : ∀ {q : Ref}, .node q ∈ body.children → low ≤ q.index ∧ q.index < st₂.size) :
    ∃ ψ : Ref → Ref, (∀ r : Ref, r.index < st₂.size → ψ r = φ r) ∧
      st'.Sprouts roots low ψ st₁ (st₂.alloc body).2 ∧
      Sprout low ψ (st₂.alloc body).2 (st₂.alloc body).1 (.node s) := by
  have hagree : ∀ r : Ref, r.index < st₂.size → Function.update φ ⟨st₂.size⟩ s r = φ r := by
    intro r hr
    refine Function.update_of_ne ?_ _ _
    rintro rfl
    exact Nat.lt_irrefl _ hr
  have hrename : body.rename (Function.update φ ⟨st₂.size⟩ s) = body.rename φ := by
    refine Body.rename_congr fun c hc => ?_
    cases c with
    | scalar a => rfl
    | node q => exact congrArg Value.node (hagree q (hchildren hc).2)
  -- The new node is the only one since `st₂`.
  have honly : ∀ {r : Ref}, st₂.size ≤ r.index → r.index < (st₂.alloc body).2.size →
      r = ⟨st₂.size⟩ := by
    intro r hr hlt
    rw [size_alloc] at hlt
    exact Ref.eq_of_index_eq (Nat.le_antisymm (Nat.le_of_lt_succ hlt) hr)
  have hlast : st'.Sprouts roots low (Function.update φ ⟨st₂.size⟩ s) st₂ (st₂.alloc body).2 := by
    constructor
    · simp
    · exact fun hr => node_alloc_of_ne (Nat.ne_of_lt hr)
    · intro r hr hlt
      rw [honly hr hlt, node_alloc, if_pos rfl]
    · intro r hr q hq
      obtain rfl := honly hr (index_lt_of_mem_children hq)
      rw [children_alloc_self] at hq
      exact hchildren hq
    · intro r hr hlt
      rw [honly hr hlt, Function.update_self, body_alloc_self, hrename, hbody]
    · intro r hr hlt
      rw [honly hr hlt, Function.update_self]
      exact hs
  refine ⟨_, hagree, h.trans hlast hagree, ?_, ?_⟩
  · rw [fst_alloc, Value.rename_node, Function.update_self]
  · rintro q ⟨⟩
    exact ⟨hlow.trans h.size_le, by simp [Store.size, Store.alloc]⟩

end Sprouts

end Store

namespace Table

variable {α : Type}

theorem putEntry_of_notMem {k : String} {a : α} {es : List (String × α)}
    (h : k ∉ es.map Prod.fst) : putEntry k a es = es ++ [(k, a)] := by
  induction es with
  | nil => rfl
  | cons e es ih =>
      rw [List.map_cons, List.mem_cons, not_or] at h
      rw [putEntry, if_neg fun hk => h.1 hk.symm, ih h.2]
      rfl

theorem entries_insertAll {t : Table α} {es : List (String × α)}
    (h : ((t.entries ++ es).map Prod.fst).Nodup) : (t.insertAll es).entries = t.entries ++ es := by
  induction es generalizing t with
  | nil => exact (List.append_nil _).symm
  | cons e es ih =>
      have hnew : e.1 ∉ t.entries.map Prod.fst := by
        rw [List.map_append, List.nodup_append] at h
        exact fun hmem => h.2.2 _ hmem _ List.mem_cons_self rfl
      have hentries : (t.insert e.1 e.2).entries = t.entries ++ [e] := by
        rw [entries_insert, putEntry_of_notMem hnew]
      rw [insertAll_cons, ih, hentries, List.append_assoc, List.singleton_append]
      rwa [hentries, List.append_assoc, List.singleton_append]

theorem entries_ofList {es : List (String × α)} (h : (es.map Prod.fst).Nodup) :
    (ofList es).entries = es := entries_insertAll h

theorem entries_ofList_zip {keys : List String} {as : List α} (h : keys.Nodup)
    (hlength : keys.length = as.length) : (ofList (keys.zip as)).entries = keys.zip as :=
  entries_ofList (by rwa [List.map_fst_zip hlength.le])

theorem values_ofList_zip {keys : List String} {as : List α} (h : keys.Nodup)
    (hlength : keys.length = as.length) : (ofList (keys.zip as)).values = as := by
  rw [values, entries_ofList_zip h hlength, List.map_snd_zip hlength.ge]

end Table

namespace Template

open Store

variable {st' st₁ st₂ : Store} {roots : List Value} {low : ℕ} {φ : Ref → Ref}

/-- Building the template makes nodes whose images are those of any value that it describes. -/
def Grows (st' : Store) (roots : List Value) (low : ℕ) (t : Template) : Prop :=
  ∀ (x : Value) (st₁ : Store) (φ : Ref → Ref), low ≤ st₁.size → t.Describes st' x →
    st'.Within roots x → ∃ ψ : Ref → Ref, (∀ r : Ref, r.index < st₁.size → ψ r = φ r) ∧
      st'.Sprouts roots low ψ st₁ (t.build st₁).2 ∧
      Sprout low ψ (t.build st₁).2 (t.build st₁).1 x

theorem buildList_sprouts {ts : List Template} {xs : List Value} (φ : Ref → Ref)
    (ih : ∀ t ∈ ts, t.Grows st' roots low) (hlow : low ≤ st₁.size)
    (h : List.Forall₂ (Describes st') ts xs) (hxs : ∀ x ∈ xs, st'.Within roots x) :
    ∃ ψ : Ref → Ref, (∀ r : Ref, r.index < st₁.size → ψ r = φ r) ∧
      st'.Sprouts roots low ψ st₁ (buildList ts st₁).2 ∧
      List.Forall₂ (Sprout low ψ (buildList ts st₁).2) (buildList ts st₁).1 xs := by
  induction h generalizing st₁ φ with
  | nil => exact ⟨φ, fun _ _ => rfl, sprouts_refl _ _ _ _ _, .nil⟩
  | @cons t x ts xs ht hts ihts =>
      obtain ⟨hgrows, hrest⟩ := List.forall_mem_cons.mp ih
      obtain ⟨hx, hxs⟩ := List.forall_mem_cons.mp hxs
      obtain ⟨ψ, hψ, hsprouts, hsprout⟩ := hgrows x st₁ φ hlow ht hx
      obtain ⟨χ, hχ, hsprouts', hsprout'⟩ :=
        ihts ψ hrest (hlow.trans hsprouts.size_le) hxs
      refine ⟨χ, fun r hr => ?_, hsprouts.trans hsprouts' hχ, .cons ?_ hsprout'⟩
      · rw [hχ r (Nat.lt_of_lt_of_le hr hsprouts.size_le), hψ r hr]
      · exact hsprout.later hsprouts'.size_le hχ

theorem eq_map_of_sprouts {vs xs : List Value} (h : List.Forall₂ (Sprout low φ st₂) vs xs) :
    xs = vs.map (Value.rename φ) := by
  induction h with
  | nil => rfl
  | cons hv _ ih => rw [List.map_cons, ← hv.image, ih]

theorem index_of_sprouts {vs xs : List Value} (h : List.Forall₂ (Sprout low φ st₂) vs xs) {q : Ref}
    (hq : .node q ∈ vs) : low ≤ q.index ∧ q.index < st₂.size := by
  induction h with
  | nil => simp at hq
  | cons hv _ ih =>
      rcases List.mem_cons.mp hq with heq | hq
      · exact hv.index heq.symm
      · exact ih hq

/-- The table of the built entries. -/
theorem table_of_sprouts {es : List (String × Template)} {vs : List Value} {table : Table Value}
    (hes : DescribesEntries st' es table.entries)
    (hvs : List.Forall₂ (Sprout low φ st₂) vs table.values) :
    (Table.ofList ((es.map Prod.fst).zip vs)).values = vs ∧
      table = (Table.ofList ((es.map Prod.fst).zip vs)).map (Value.rename φ) := by
  have hkeys := keys_eq_of_forall₂ (describesEntries_iff.mp hes)
  have hvalues := eq_map_of_sprouts hvs
  have hnodup : (es.map Prod.fst).Nodup := hkeys ▸ table.nodup
  have hlength : (es.map Prod.fst).length = vs.length := by
    rw [← hkeys, List.length_map, hvs.length_eq, Table.values, List.length_map]
  refine ⟨Table.values_ofList_zip hnodup hlength, Table.eq_of_entries ?_⟩
  rw [Table.entries_map, Table.entries_ofList_zip hnodup hlength, List.zip_of_prod hkeys hvalues,
    List.zip_map_right]
  rfl

/-- The container of the built entries, a map or a record. -/
theorem container_sprouts (mk : Table Value → Body)
    (hrename : ∀ table φ, (mk table).rename φ = mk (table.map (Value.rename φ)))
    (hchildren : ∀ table, (mk table).children = table.values) {es : List (String × Template)}
    {r : Ref} {table : Table Value} (ih : ∀ e ∈ es, e.2.Grows st' roots low)
    (hlow : low ≤ st₁.size) (hbody : st'.body r = mk table)
    (hes : DescribesEntries st' es table.entries) (hr : st'.Within roots (.node r)) :
    ∃ ψ : Ref → Ref, (∀ s : Ref, s.index < st₁.size → ψ s = φ s) ∧
      st'.Sprouts roots low ψ st₁
        ((buildEntries es st₁).2.alloc (mk (.ofList (buildEntries es st₁).1))).2 ∧
      Sprout low ψ ((buildEntries es st₁).2.alloc (mk (.ofList (buildEntries es st₁).1))).2
        ((buildEntries es st₁).2.alloc (mk (.ofList (buildEntries es st₁).1))).1 (.node r) := by
  have hwithin : ∀ c ∈ table.values, st'.Within roots c := fun c hc =>
    hr.reaches (reaches_of_mem_children (by rwa [children, hbody, hchildren]))
  have hvalues : List.Forall₂ (Describes st') (es.map Prod.snd) table.values := by
    rw [Table.values, List.forall₂_map_left_iff, List.forall₂_map_right_iff]
    exact (describesEntries_iff.mp hes).imp fun _ _ h => h.2
  obtain ⟨ψ, hψ, hsprouts, hvs⟩ :=
    buildList_sprouts φ (List.forall_mem_map.mpr ih) hlow hvalues hwithin
  obtain ⟨hbuilt, htable⟩ := table_of_sprouts hes hvs
  rw [htable, ← hrename] at hbody
  rw [buildEntries_eq]
  obtain ⟨χ, hχ, hnew⟩ := hsprouts.alloc hlow hr hbody fun hq =>
    index_of_sprouts hvs (by rwa [hchildren, hbuilt] at hq)
  refine ⟨χ, fun s hs => ?_, hnew⟩
  rw [hχ s (Nat.lt_of_lt_of_le hs hsprouts.size_le), hψ s hs]

theorem build_sprouts (t : Template) : t.Grows st' roots low := by
  induction t using Template.induct with
  | scalar a =>
      rintro x st₁ φ _ rfl _
      exact ⟨φ, fun _ _ => rfl, sprouts_refl _ _ _ _ _, rfl, nofun⟩
  | date ms =>
      rintro x st₁ φ hlow ⟨r, rfl, hbody⟩ hx
      exact (sprouts_refl st' roots low φ st₁).alloc hlow hx hbody nofun
  | list ts ih =>
      rintro x st₁ φ hlow ⟨r, items, rfl, hbody, hitems⟩ hx
      have hwithin : ∀ c ∈ items, st'.Within roots c := fun c hc =>
        hx.reaches (reaches_of_mem_children (by rwa [children, hbody]))
      obtain ⟨ψ, hψ, hsprouts, hvs⟩ :=
        buildList_sprouts φ ih hlow (describesList_iff.mp hitems) hwithin
      have hlist : st'.body r = (Body.list (buildList ts st₁).1).rename ψ := by
        rw [hbody, eq_map_of_sprouts hvs, Body.rename]
      obtain ⟨χ, hχ, hnew⟩ := hsprouts.alloc hlow hx hlist (index_of_sprouts hvs)
      refine ⟨χ, fun r hr => ?_, hnew⟩
      rw [hχ r (Nat.lt_of_lt_of_le hr hsprouts.size_le), hψ r hr]
  | map es ih =>
      rintro x st₁ φ hlow ⟨r, entries, rfl, hbody, hes⟩ hx
      exact container_sprouts .map (fun _ _ => rfl) (fun _ => rfl) ih hlow hbody hes hx
  | ofClass cls es ih =>
      rintro x st₁ φ hlow ⟨r, fields, rfl, hbody, hes⟩ hx
      exact container_sprouts (.record cls) (fun _ _ => rfl) (fun _ => rfl) ih hlow hbody hes hx

end Template

/-! ### Deep copies -/

namespace Store

variable {st st' st₂ : Store} {roots roots' : List Value} {φ : Ref → Ref} {v w x : Value}

/-- What is reached from a new value is new; all else is reached as before. -/
theorem Sprouts.within (h : st'.Sprouts roots' st.size φ st st₂) (hsound : st.Sound roots)
    (hv : Sprout st.size φ st₂ v x) (hw : st₂.Within (v :: roots) w) :
    (∃ s, w = .node s ∧ st.size ≤ s.index ∧ s.index < st₂.size) ∨ st.Within roots w := by
  have hstart : ∀ u ∈ v :: roots,
      (∃ s, u = .node s ∧ st.size ≤ s.index ∧ s.index < st₂.size) ∨ st.Within roots u := by
    intro u hu
    rcases List.mem_cons.mp hu with rfl | hu
    · cases u with
      | scalar a => exact .inr (within_scalar a)
      | node s => exact .inl ⟨s, rfl, hv.index rfl⟩
    · exact .inr (within_of_mem hu)
  rcases hw with ⟨a, rfl⟩ | ⟨u, hu, huw⟩
  · exact .inr (within_scalar a)
  · refine huw.inherit (P := fun w => (∃ s, w = .node s ∧ st.size ≤ s.index ∧ s.index < st₂.size) ∨
      st.Within roots w) (hstart u hu) fun r hr c hc => ?_
    rcases hr with ⟨s, hs, hle, hlt⟩ | hr
    · cases hs
      cases c with
      | scalar a => exact .inr (within_scalar a)
      | node q =>
          obtain ⟨hqle, hqlt⟩ := h.children hle hc
          exact .inl ⟨q, rfl, hqle, hqlt.trans hlt⟩
    · rw [Store.children, h.body_eq (hsound r (within_node_iff.mp hr))] at hc
      exact .inr (hr.reaches (reaches_of_mem_children hc))

theorem Sprouts.founded (h : st'.Sprouts roots' st.size φ st st₂) {r : Ref}
    (hr : st.size ≤ r.index) : st₂.Founded (.node r) := by
  induction hn : r.index using Nat.strong_induction_on generalizing r with
  | _ n ih =>
      refine founded_node fun c hc => ?_
      cases c with
      | scalar a => exact founded_scalar a
      | node s =>
          obtain ⟨hle, hlt⟩ := h.children hr hc
          exact ih s.index (hn ▸ hlt) hle rfl

/-- New nodes mirror their images beside the old ones, which are their own. -/
theorem Sprouts.mirror (h : st'.Sprouts roots' st.size φ st st₂)
    (hold : ∀ r : Ref, r.index < st.size → φ r = r) (hext : st.Extends st')
    (hsound' : st'.Sound roots') (hsound : st.Sound roots)
    (hfounded : ∀ u ∈ roots, st.Founded u) (hv : Sprout st.size φ st₂ v x) :
    Mirror φ st₂ st' (v :: roots) := by
  -- A node that is reached is new, or is an old one and its own image.
  have hcases : ∀ {r : Ref}, st₂.Reachable (v :: roots) r →
      (st.size ≤ r.index ∧ r.index < st₂.size) ∨ st.Reachable roots r ∧ r.index < st.size := by
    intro r hr
    rcases h.within hsound hv (within_node_iff.mpr hr) with ⟨s, hs, hnew⟩ | hr
    · cases hs
      exact .inl hnew
    · have hreach := within_node_iff.mp hr
      exact .inr ⟨hreach, hsound r hreach⟩
  constructor
  · intro r hr
    rcases hcases hr with ⟨hle, hlt⟩ | ⟨hreach, hlt⟩
    · exact h.body hle hlt
    · rw [hold r hlt, hext.body_eq hlt, h.body_eq hlt]
      refine (Body.rename_eq_self fun c hc => ?_).symm
      cases c with
      | scalar a => rfl
      | node s => exact congrArg Value.node (hold s (hsound s (hreach.child hc)))
  · intro r hr hfrozen
    rcases hcases hr with ⟨hle, hlt⟩ | ⟨-, hlt⟩
    · rw [h.unfrozen hle hlt] at hfrozen
      simp at hfrozen
    · rw [h.node_eq hlt] at hfrozen
      rw [hold r hlt]
      exact hext.frozen hlt hfrozen
  · intro r hr
    rcases hcases hr with ⟨hle, hlt⟩ | ⟨-, hlt⟩
    · exact ⟨hlt, hsound' _ (within_node_iff.mp (h.target hle hlt))⟩
    · rw [hold r hlt]
      exact ⟨Nat.lt_of_lt_of_le hlt h.size_le, Nat.lt_of_lt_of_le hlt hext.size_le⟩
  · intro u hu
    rcases List.mem_cons.mp hu with rfl | hu
    · cases u with
      | scalar a => exact founded_scalar a
      | node r => exact h.founded (hv.index rfl).1
    · refine AgreeBelow.founded (fun r hr => ?_) (hfounded u hu)
      exact h.body_eq (hsound r ⟨u, hu, hr⟩)

theorem describes_template (hsound : st.Sound roots) (hv : st.Within roots v)
    (hfounded : st.Founded v) : (st.templateTo st.size v).Describes st v :=
  describes_templateTo (hfounded.shallow_size fun r hr =>
    hsound r (within_node_iff.mp (hv.reaches hr)))

/-- A deep copy mirrors any value that the template describes, beside all old values. -/
theorem deepCopy_mirror (hsound : st.Sound roots) (hfounded : ∀ u ∈ roots, st.Founded u)
    (hgrown : st.Grown roots st') (hx : st.Available roots st' x)
    (hdescribes : (st.templateTo st.size v).Describes st' x) :
    ∃ φ, x = (st.deepCopy v).1.rename φ ∧ (∀ u ∈ roots, u.rename φ = u) ∧
      Mirror φ (st.deepCopy v).2 st' ((st.deepCopy v).1 :: roots) := by
  obtain ⟨φ, hold, hsprouts, hcopy⟩ := Template.build_sprouts (st.templateTo st.size v) x st id
    (Nat.le_refl _) hdescribes (within_of_mem (List.mem_singleton_self x))
  have hsound' : st'.Sound [x] := hgrown.sound hsound (List.forall_mem_singleton.mpr hx)
  refine ⟨φ, hcopy.image, fun u hu => ?_,
    hsprouts.mirror hold hgrown.toExtends hsound' hsound hfounded hcopy⟩
  cases u with
  | scalar a => rfl
  | node r => exact congrArg Value.node (hold r (hsound r (reachable_of_mem hu)))

/-- A deep copy is like the value, and all its nodes are new and unfrozen. -/
theorem deepCopy_alike (hsound : st.Sound [v]) (hfounded : st.Founded v) :
    Alike (st.deepCopy v).2 st (st.deepCopy v).1 v ∧
      ∀ r, (st.deepCopy v).2.Reaches (st.deepCopy v).1 (.node r) →
        st.size ≤ r.index ∧ ((st.deepCopy v).2.node r).frozen = false := by
  have hshallow := hfounded.shallow_size fun r hr => hsound r ⟨v, List.mem_cons_self, hr⟩
  have hself : st.Within [v] v := within_of_mem List.mem_cons_self
  obtain ⟨φ, hold, hsprouts, hcopy⟩ := Template.build_sprouts (st.templateTo st.size v) v st id
    (Nat.le_refl _) (describes_templateTo hshallow) hself
  have hnone := sound_nil st
  have hmirror := hsprouts.mirror hold (extends_refl st) hsound hnone nofun hcopy
  constructor
  · have halike := hmirror.alike (within_of_mem List.mem_cons_self)
    rwa [← hcopy.image] at halike
  · intro r hr
    have hwithin := hsprouts.within hnone hcopy (.inr ⟨_, List.mem_cons_self, hr⟩)
    rcases hwithin with ⟨s, hs, hle, hlt⟩ | hr
    · cases hs
      exact ⟨hle, hsprouts.unfrozen hle hlt⟩
    · obtain ⟨u, hu, -⟩ := within_node_iff.mp hr
      simp at hu

end Store

end PathCopy
