import PathCopy.Proofs.Children
import PathCopy.Proofs.Depth
import PathCopy.Proofs.Doubles
import PathCopy.Proofs.Likeness

/-!
What equality compares. A value is unfolded into the tree of what it holds: nothing tells how its
nodes are shared, which of them are frozen or in which order their entries stand, and the class of a
record is its name. Equality is symmetric and transitive although it takes every node to be equal to
itself, and where no NaN is inside it compares the trees.
-/

namespace PathCopy

/-! ### Scalars -/

namespace Scalar

variable {a b c : Scalar}

/-- The scalar with one zero in place of the two. -/
def plain : Scalar → Scalar
  | number x => number (Number.plain x)
  | a => a

def isNaN : Scalar → Bool
  | number x => x.isNaN
  | _ => false

theorem isNaN_plain (a : Scalar) : a.plain.isNaN = a.isNaN := by
  cases a with
  | number x => exact Number.isNaN_plain x
  | _ => rfl

theorem equal_iff : a.equal b = true ↔ a.isNaN = false ∧ a.plain = b.plain := by
  cases a <;> cases b <;> simp [equal, isNaN, plain, Number.beq_iff]

theorem equal_symm (h : a.equal b = true) : b.equal a = true := by
  obtain ⟨hnan, hplain⟩ := equal_iff.mp h
  refine equal_iff.mpr ⟨?_, hplain.symm⟩
  rw [← isNaN_plain, ← hplain, isNaN_plain, hnan]

theorem equal_trans (h : a.equal b = true) (h' : b.equal c = true) : a.equal c = true := by
  obtain ⟨hnan, hplain⟩ := equal_iff.mp h
  exact equal_iff.mpr ⟨hnan, hplain.trans (equal_iff.mp h').2⟩

end Scalar

/-! ### Nodes -/

theorem listsAgree_iff {α : Type} {agree : α → α → Bool} {as bs : List α} :
    listsAgree agree as bs = true ↔ List.Forall₂ (fun a b => agree a b = true) as bs := by
  induction as generalizing bs with
  | nil => cases bs <;> simp [listsAgree]
  | cons a as ih => cases bs <;> simp [listsAgree, ih]

section Tables

variable {α : Type} {agree : α → α → Bool} {t u : Table α} {k : String}

theorem Table.mem_keys_iff : k ∈ t.keys ↔ ∃ a, t.get? k = some a :=
  isSome_findEntry_iff.symm.trans Option.isSome_iff_exists

theorem Table.length_keys (t : Table α) : t.keys.length = t.size := List.length_map _

/-- Every entry of the first table is found in the second one, and no key is left over. -/
theorem tablesAgree_iff_found : tablesAgree agree t u = true ↔
    t.size = u.size ∧ ∀ k a, t.get? k = some a → ∃ b, u.get? k = some b ∧ agree a b = true := by
  rw [tablesAgree, Bool.and_eq_true, beq_iff_eq, List.all_eq_true]
  refine and_congr_right fun _ => ⟨fun h k a ha => ?_, fun h e he => ?_⟩
  · have hentry := h (k, a) (mem_of_findEntry ha)
    cases hu : u.get? k with
    | none => simp [hu] at hentry
    | some b => exact ⟨b, rfl, by simpa [hu] using hentry⟩
  · obtain ⟨b, hb, hab⟩ := h e.1 e.2 (findEntry_of_mem t.nodup he)
    simpa [hb] using hab

theorem tablesAgree_iff : tablesAgree agree t u = true ↔
    ∀ k, Option.Rel (fun a b => agree a b = true) (t.get? k) (u.get? k) := by
  rw [tablesAgree_iff_found]
  constructor
  · rintro ⟨hsize, hfound⟩ k
    have hsub : t.keys ⊆ u.keys := by
      intro k hk
      obtain ⟨a, ha⟩ := Table.mem_keys_iff.mp hk
      obtain ⟨b, hb, -⟩ := hfound k a ha
      exact Table.mem_keys_iff.mpr ⟨b, hb⟩
    -- As many keys, and no key twice: the second table has none that the first one lacks.
    have hlength : u.keys.length ≤ t.keys.length := by
      rw [Table.length_keys, Table.length_keys, hsize]
    have hperm : t.keys.Perm u.keys := (t.nodup.subperm hsub).perm_of_length_le hlength
    cases ht : t.get? k with
    | some a =>
        obtain ⟨b, hb, hab⟩ := hfound k a ht
        rw [hb]
        exact .some hab
    | none =>
        cases hu : u.get? k with
        | none => exact .none
        | some b =>
            obtain ⟨a, ha⟩ :=
              Table.mem_keys_iff.mp (hperm.mem_iff.mpr (Table.mem_keys_iff.mpr ⟨b, hu⟩))
            cases ht.symm.trans ha
  · intro h
    have hkeys : ∀ k, k ∈ t.keys ↔ k ∈ u.keys := by
      intro k
      have hk := h k
      rw [Table.mem_keys_iff, Table.mem_keys_iff]
      rcases ht : t.get? k with _ | a <;> rcases hu : u.get? k with _ | b <;> simp_all
    have hperm := (List.perm_ext_iff_of_nodup t.nodup u.nodup).mpr hkeys
    refine ⟨t.length_keys.symm.trans (hperm.length_eq.trans u.length_keys), fun k a ha => ?_⟩
    have hk := h k
    rw [ha] at hk
    cases hu : u.get? k <;> rw [hu] at hk <;> cases hk
    exact ⟨_, rfl, ‹_›⟩

end Tables

namespace Body

/-- Two nodes hold values that correspond: dates the same time, lists place by place, maps and
records key by key, and records have the same name. -/
inductive Corresponds (R : Value → Value → Prop) : Body → Body → Prop
  | date (ms : Int) : Corresponds R (.date ms) (.date ms)
  | list {items items' : List Value} (places : List.Forall₂ R items items') :
      Corresponds R (.list items) (.list items')
  | map {entries entries' : Table Value}
      (keys : ∀ k, Option.Rel R (entries.get? k) (entries'.get? k)) :
      Corresponds R (.map entries) (.map entries')
  | record {cls cls' : Option Class} {fields fields' : Table Value}
      (name : cls.map (·.name) = cls'.map (·.name))
      (keys : ∀ k, Option.Rel R (fields.get? k) (fields'.get? k)) :
      Corresponds R (.record cls fields) (.record cls' fields')

variable {R S : Value → Value → Prop} {body body' body'' : Body}

theorem agree_iff {agree : Value → Value → Bool} :
    body.agree agree body' = true ↔ body.Corresponds (fun v w => agree v w = true) body' := by
  constructor
  · intro h
    cases body <;> cases body' <;> try cases h
    case date.date m n => exact eq_of_beq h ▸ .date m
    case list.list => exact .list (listsAgree_iff.mp h)
    case map.map => exact .map (tablesAgree_iff.mp h)
    case record.record =>
      rw [Body.agree, Bool.and_eq_true, beq_iff_eq] at h
      exact .record h.1 (tablesAgree_iff.mp h.2)
  · rintro (ms | hitems | hentries | ⟨hname, hfields⟩)
    · exact beq_self_eq_true ms
    · exact listsAgree_iff.mpr hitems
    · exact tablesAgree_iff.mpr hentries
    · rw [Body.agree, Bool.and_eq_true, beq_iff_eq]
      exact ⟨hname, tablesAgree_iff.mpr hfields⟩

namespace Corresponds

theorem symm (h : body.Corresponds R body') : body'.Corresponds (fun v w => R w v) body := by
  have hflip : ∀ {a b : Option Value}, Option.Rel R a b → Option.Rel (fun v w => R w v) b a := by
    rintro _ _ (hab | -)
    · exact .some hab
    · exact .none
  cases h with
  | date ms => exact .date ms
  | list hitems => exact .list hitems.flip
  | map hentries => exact .map fun k => hflip (hentries k)
  | record hname hfields => exact .record hname.symm fun k => hflip (hfields k)

theorem trans (h : body.Corresponds R body') (h' : body'.Corresponds R body'')
    (htrans : ∀ u v w, R u v → R v w → R u w) : body.Corresponds R body'' := by
  have hitems : ∀ {us vs ws : List Value}, List.Forall₂ R us vs → List.Forall₂ R vs ws →
      List.Forall₂ R us ws := by
    intro us vs ws huv
    induction huv generalizing ws with
    | nil => exact id
    | cons hab _ ih =>
        rintro (_ | ⟨hbc, hrest⟩)
        exact .cons (htrans _ _ _ hab hbc) (ih hrest)
  have hcompose : ∀ {a b c : Option Value}, Option.Rel R a b → Option.Rel R b c →
      Option.Rel R a c := by
    rintro _ _ _ (hab | -) (hbc | -)
    · exact .some (htrans _ _ _ hab hbc)
    · exact .none
  cases h with
  | date ms => exact h'
  | list huv =>
      cases h' with
      | list hvw => exact .list (hitems huv hvw)
  | map huv =>
      cases h' with
      | map hvw => exact .map fun k => hcompose (huv k) (hvw k)
  | record hname huv =>
      cases h' with
      | record hname' hvw => exact .record (hname.trans hname') fun k => hcompose (huv k) (hvw k)

theorem mono (h : body.Corresponds R body')
    (himp : ∀ c ∈ body.children, ∀ d ∈ body'.children, R c d → S c d) :
    body.Corresponds S body' := by
  have htables : ∀ {t u : Table Value} (k : String),
      (∀ c ∈ t.values, ∀ d ∈ u.values, R c d → S c d) →
      Option.Rel R (t.get? k) (u.get? k) → Option.Rel S (t.get? k) (u.get? k) := by
    intro t u k himp hk
    cases ht : t.get? k <;> cases hu : u.get? k <;> rw [ht, hu] at hk <;> cases hk
    · exact .none
    · exact .some (himp _ (Table.mem_values_of_get? ht) _ (Table.mem_values_of_get? hu) ‹_›)
  cases h with
  | date ms => exact .date ms
  | list hitems => exact .list (forall₂_imp_mem hitems himp)
  | map hentries => exact .map fun k => htables k himp (hentries k)
  | record hname hfields => exact .record hname fun k => htables k himp (hfields k)

end Corresponds

end Body

/-! ### Trees -/

/-- What a value is apart from sharing, freezing and order. -/
inductive Tree
  | scalar (value : Scalar)
  | date (milliseconds : Int)
  | list (items : List Tree)
  | map (entries : String → Option Tree)
  | record (name : Option String) (fields : String → Option Tree)

/-- The tree of a node, where `tree` gives those of its children. -/
def Body.tree (tree : Value → Tree) : Body → Tree
  | date ms => .date ms
  | list items => .list (items.map tree)
  | map entries => .map fun k => (entries.get? k).map tree
  | record cls fields => .record (cls.map (·.name)) fun k => (fields.get? k).map tree

theorem Body.tree_congr {f g : Value → Tree} {body : Body}
    (h : ∀ c ∈ body.children, f c = g c) : body.tree f = body.tree g := by
  have htable : ∀ {t : Table Value}, (∀ c ∈ t.values, f c = g c) →
      ∀ k, (t.get? k).map f = (t.get? k).map g := fun h k =>
    Option.map_congr fun _ hc => h _ (Table.mem_values_of_get? hc)
  cases body with
  | date ms => rfl
  | list items => exact congrArg Tree.list (List.map_congr_left h)
  | map entries => exact congrArg Tree.map (funext (htable h))
  | record cls fields => exact congrArg (Tree.record _) (funext (htable h))

theorem Body.tree_eq_iff {tree : Value → Tree} {body body' : Body} :
    body.tree tree = body'.tree tree ↔ body.Corresponds (fun v w => tree v = tree w) body' := by
  have hmap : ∀ {a b : Option Value},
      a.map tree = b.map tree ↔ Option.Rel (fun v w => tree v = tree w) a b := by
    intro a b
    cases a <;> cases b <;> simp
  have hlist : ∀ {as bs : List Value},
      as.map tree = bs.map tree ↔ List.Forall₂ (fun v w => tree v = tree w) as bs := by
    intro as bs
    rw [← List.forall₂_eq_eq_eq, List.forall₂_map_left_iff, List.forall₂_map_right_iff]
  constructor
  · intro h
    cases body <;> cases body' <;> injection h
    case date.date m n hms => exact hms ▸ .date m
    case list.list hitems => exact .list (hlist.mp hitems)
    case map.map hentries => exact .map fun k => hmap.mp (congrFun hentries k)
    case record.record hname hfields =>
      exact .record hname fun k => hmap.mp (congrFun hfields k)
  · rintro (ms | hitems | hentries | ⟨hname, hfields⟩)
    · rfl
    · exact congrArg Tree.list (hlist.mpr hitems)
    · exact congrArg Tree.map (funext fun k => hmap.mpr (hentries k))
    · exact congrArg₂ Tree.record hname (funext fun k => hmap.mpr (hfields k))

namespace Store

variable {st : Store} {u v w : Value} {n m : ℕ} {r : Ref}

/-- The tree of a value down to `depth` levels of nodes. -/
def treeTo (st : Store) : ℕ → Value → Tree
  | _, .scalar a => .scalar a.plain
  | 0, .node _ => .scalar .undefined
  | depth + 1, .node r => (st.body r).tree (st.treeTo depth)

def tree (st : Store) (v : Value) : Tree := st.treeTo st.size v

/-- Deep enough a tree shows all of the value. -/
theorem Shallow.treeTo_eq (h : st.Shallow n v) (hm : n ≤ m) : st.treeTo m v = st.treeTo n v := by
  induction n generalizing m v with
  | zero =>
      cases v with
      | scalar a => rw [treeTo, treeTo]
      | node r => exact h.elim
  | succ n ih =>
      obtain ⟨m, rfl⟩ := Nat.exists_eq_add_of_le' (Nat.le_of_add_left_le hm)
      cases v with
      | scalar a => rw [treeTo, treeTo]
      | node r =>
          have hchild : ∀ c ∈ (st.body r).children, st.treeTo m c = st.treeTo n c := fun c hc =>
            ih (h c hc) (Nat.le_of_succ_le_succ hm)
          rw [treeTo, treeTo]
          exact Body.tree_congr hchild

theorem tree_node (h : st.Shallow st.size (.node r)) :
    st.tree (.node r) = (st.body r).tree st.tree := by
  rw [tree, ← h.treeTo_eq (Nat.le_succ st.size), treeTo]
  rfl

/-! ### Equality -/

@[simp] theorem equalTo_scalars (n : ℕ) (a b : Scalar) :
    st.equalTo n (.scalar a) (.scalar b) = a.equal b := by
  cases n <;> rw [equalTo]

@[simp] theorem equalTo_scalar_node (n : ℕ) (a : Scalar) (s : Ref) :
    st.equalTo n (.scalar a) (.node s) = false := by
  cases n <;> rw [equalTo] <;> simp

@[simp] theorem equalTo_node_scalar (n : ℕ) (r : Ref) (b : Scalar) :
    st.equalTo n (.node r) (.scalar b) = false := by
  cases n <;> rw [equalTo] <;> simp

/-- Nodes are equal if they are one, or if what they hold corresponds one level down. -/
theorem equalTo_nodes {s : Ref} : st.equalTo n (.node r) (.node s) = true ↔ r = s ∨
    ∃ m, n = m + 1 ∧
      (st.body r).Corresponds (fun v w => st.equalTo m v w = true) (st.body s) := by
  cases n with
  | zero => simp [equalTo]
  | succ n =>
      rw [equalTo, Bool.or_eq_true, beq_iff_eq, Body.agree_iff]
      simp

theorem equalTo_node_self (n : ℕ) (r : Ref) : st.equalTo n (.node r) (.node r) = true :=
  equalTo_nodes.mpr (.inl rfl)

theorem equalTo_cases (h : st.equalTo n v w = true) :
    (∃ a b, v = .scalar a ∧ w = .scalar b ∧ a.equal b = true) ∨
      ∃ r s, v = .node r ∧ w = .node s := by
  rcases v with a | r <;> rcases w with b | s
  · exact .inl ⟨a, b, rfl, rfl, by simpa using h⟩
  · simp at h
  · simp at h
  · exact .inr ⟨r, s, rfl, rfl⟩

theorem equalTo_symm (h : st.equalTo n v w = true) : st.equalTo n w v = true := by
  induction n using Nat.strong_induction_on generalizing v w with
  | _ n ih =>
      rcases equalTo_cases h with ⟨a, b, rfl, rfl, hab⟩ | ⟨r, s, rfl, rfl⟩
      · rw [equalTo_scalars, Scalar.equal_symm hab]
      · rw [equalTo_nodes] at h ⊢
        rcases h with rfl | ⟨m, rfl, hbody⟩
        · exact .inl rfl
        · exact .inr ⟨m, rfl, hbody.symm.mono fun _ _ _ _ => ih m (Nat.lt_succ_self m)⟩

/-- Where one of the two comparisons ends at a node that is shared, the other one decides. -/
theorem equalTo_trans (h : st.equalTo n u v = true) (h' : st.equalTo n v w = true) :
    st.equalTo n u w = true := by
  induction n using Nat.strong_induction_on generalizing u v w with
  | _ n ih =>
      rcases equalTo_cases h with ⟨a, b, rfl, rfl, hab⟩ | ⟨r, s, rfl, rfl⟩
      · rcases equalTo_cases h' with ⟨b, c, hb, rfl, hbc⟩ | ⟨_, _, hb, -⟩
        · cases hb
          rw [equalTo_scalars, Scalar.equal_trans hab hbc]
        · cases hb
      · rcases equalTo_cases h' with ⟨_, _, hs, -⟩ | ⟨s, t, hs, rfl⟩
        · cases hs
        · cases hs
          rcases equalTo_nodes.mp h with rfl | ⟨m, rfl, hbody⟩
          · exact h'
          · rcases equalTo_nodes.mp h' with rfl | ⟨m, hm, hbody'⟩
            · exact h
            · cases hm
              refine equalTo_nodes.mpr (.inr ⟨_, rfl, hbody.trans hbody' fun _ _ _ => ?_⟩)
              exact ih _ (Nat.lt_succ_self _)

/-- No NaN is inside the value. -/
def NaNFree (st : Store) (v : Value) : Prop := ∀ a, st.Reaches v (.scalar a) → a.isNaN = false

theorem NaNFree.child (h : st.NaNFree (.node r)) (hv : v ∈ st.children r) : st.NaNFree v :=
  fun a ha => h a ((reaches_of_mem_children hv).trans ha)

theorem nanFree_of_children
    (h : ∀ i < st.size, ∀ c ∈ st.children ⟨i⟩, ∀ a ∈ c.scalar?, a.isNaN = false) (r : Ref) :
    st.NaNFree (.node r) := by
  intro a ha
  rcases Relation.ReflTransGen.cases_tail ha with heq | ⟨_, -, s, rfl, hmem⟩
  · cases heq
  · exact h s.index (index_lt_of_mem_children hmem) _ hmem a rfl

theorem Shallow.equalTo_iff (hv : st.Shallow n v) (hw : st.Shallow n w) (hnan : st.NaNFree v) :
    st.equalTo n v w = true ↔ st.treeTo n v = st.treeTo n w := by
  induction n generalizing v w with
  | zero =>
      rcases v with a | r
      · rcases w with b | s
        · rw [equalTo_scalars, Scalar.equal_iff, treeTo, treeTo, Tree.scalar.injEq,
            and_iff_right (hnan a (reaches_refl st _))]
        · exact hw.elim
      · exact hv.elim
  | succ n ih =>
      rcases v with a | r <;> rcases w with b | s
      · rw [equalTo_scalars, Scalar.equal_iff, treeTo, treeTo, Tree.scalar.injEq,
          and_iff_right (hnan a (reaches_refl st _))]
      · rw [equalTo_scalar_node, treeTo, treeTo]
        cases st.body s <;> simp [Body.tree]
      · rw [equalTo_node_scalar, treeTo, treeTo]
        cases st.body r <;> simp [Body.tree]
      · have hchild : ∀ c ∈ st.children r, ∀ d ∈ st.children s,
            (st.equalTo n c d = true ↔ st.treeTo n c = st.treeTo n d) := fun c hc d hd =>
          ih (hv c hc) (hw d hd) (hnan.child hc)
        rw [equalTo_nodes, treeTo, treeTo, Body.tree_eq_iff]
        -- The same node is equal to itself without a look inside, so this case stands apart.
        constructor
        · rintro (rfl | ⟨m, hm, hbody⟩)
          · exact Body.tree_eq_iff.mp rfl
          · cases hm
            exact hbody.mono fun c hc d hd => (hchild c hc d hd).mp
        · exact fun hbody => .inr ⟨n, rfl, hbody.mono fun c hc d hd => (hchild c hc d hd).mpr⟩

end Store

/-- Equality is symmetric and transitive, whatever is shared and whatever NaN is inside; the same
node is equal to itself, and what is the same is equal. Two values that do not contain themselves
are equal, where no NaN is inside, if their trees are. -/
theorem Store.equal_sound (st : Store) (u v w : Value) :
    (st.equal u v = true → st.equal v w = true → st.equal u w = true) ∧
    (st.equal u v = true → st.equal v u = true) ∧
    (u.isNode = true → st.equal u u = true) ∧
    (u.same v = true → st.equal u v = true) ∧
    (st.Sound [u, v] → st.Acyclic [u, v] → st.NaNFree u →
      (st.equal u v = true ↔ st.tree u = st.tree v)) := by
  refine ⟨equalTo_trans, equalTo_symm, fun hnode => ?_, fun hsame => ?_,
    fun hsound hacyclic hnan => ?_⟩
  · cases u with
    | scalar a => cases hnode
    | node r => exact equalTo_node_self st.size r
  · rcases u with a | r <;> rcases v with b | s <;> try cases hsame
    · exact (equalTo_scalars st.size a b).trans hsame
    · rw [eq_of_beq hsame]
      exact equalTo_node_self st.size s
  · have hshallow : ∀ x ∈ [u, v], st.Shallow st.size x := fun x hx =>
      (hacyclic.founded hsound x hx).shallow_size fun r hr => hsound r ⟨x, hx, hr⟩
    exact Shallow.equalTo_iff (hshallow u (by simp)) (hshallow v (by simp)) hnan

/-- Two maps of lists. In the first one both entries are one list; in the second one they are two,
one of them frozen, in the other order, and the zero is the negative one. -/
def Store.twoOrders : Store :=
  ⟨#[⟨false, .list [.number 1, .text "a"]⟩, ⟨true, .list [.number 1, .text "a"]⟩,
    ⟨false, .map (.ofList [("x", .node ⟨0⟩), ("y", .node ⟨0⟩), ("z", .number 0)])⟩,
    ⟨false, .map (.ofList [("z", .number (-0)), ("y", .node ⟨1⟩), ("x", .node ⟨0⟩)])⟩]⟩

theorem Store.equal_sound_twoOrders :
    twoOrders.equal (.node ⟨2⟩) (.node ⟨3⟩) = true ∧
      twoOrders.tree (.node ⟨2⟩) = twoOrders.tree (.node ⟨3⟩) := by
  have hlayered : twoOrders.Layered := by decide +kernel
  have hsound : twoOrders.Sound [.node ⟨2⟩, .node ⟨3⟩] := hlayered.sound (by decide)
  have hacyclic : twoOrders.Acyclic [.node ⟨2⟩, .node ⟨3⟩] :=
    acyclic_of_founded fun v _ => hlayered.founded v
  have hnan : twoOrders.NaNFree (.node ⟨2⟩) := nanFree_of_children (by decide +kernel) ⟨2⟩
  have hequal : twoOrders.equal (.node ⟨2⟩) (.node ⟨3⟩) = true := by decide +kernel
  have hall := equal_sound twoOrders (.node ⟨2⟩) (.node ⟨3⟩) (.node ⟨2⟩)
  exact ⟨hequal, (hall.2.2.2.2 hsound hacyclic hnan).mp hequal⟩

end PathCopy
