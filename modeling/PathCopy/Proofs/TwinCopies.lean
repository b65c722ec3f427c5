import PathCopy.Proofs.Twins

/-!
Copies of twins. What a copy makes of a value follows from what the value looks like, so the copies
of twins are made in lockstep, node by node, and are twins again.
-/

namespace PathCopy

open Store

variable {o o' : Origin} {n m : ℕ} {st st' : Store} {v v' : Value}

/-- Entries with the same keys and twin values. -/
def TwinEntries (o o' : Origin) (n : ℕ) (es es' : List (String × Value)) : Prop :=
  List.Forall₂ (fun e e' => e'.1 = e.1 ∧ Twin o o' n e.2 e'.2) es es'

theorem Table.Match.twin_mono {t t' : Table Value} (h : t.Match (Twin o o' n) t') (hnm : n ≤ m) :
    t.Match (Twin o o' m) t' :=
  h.mono fun _ _ _ _ hvw => hvw.mono hnm

/-- Both sides come to stores with some more nodes, and to results that are related then. -/
def Onward {α β : Type} (o o' : Origin) (n : ℕ) (R : ℕ → α → β → Prop) (x : α × Store)
    (y : β × Store) : Prop :=
  ∃ m, n ≤ m ∧ Parallel o o' m x.2 y.2 ∧ R m x.1 y.1

namespace Onward

variable {α β γ δ : Type} {R : ℕ → α → β → Prop} {S : ℕ → γ → δ → Prop} {x : α × Store}
  {y : β × Store} {z : γ × Store} {z' : δ × Store}

theorem stay {a : α} {b : β} (h : Parallel o o' n st st') (hab : R n a b) :
    Onward o o' n R (a, st) (b, st') :=
  ⟨n, Nat.le_refl n, h, hab⟩

theorem bind (h : Onward o o' n R x y)
    (hrest : ∀ m, n ≤ m → Parallel o o' m x.2 y.2 → R m x.1 y.1 → Onward o o' m S z z') :
    Onward o o' n S z z' := by
  obtain ⟨m, hnm, hparallel, hR⟩ := h
  obtain ⟨k, hmk, hend⟩ := hrest m hnm hparallel hR
  exact ⟨k, Nat.le_trans hnm hmk, hend⟩

theorem alloc {body body' : Body} (h : Parallel o o' n st st')
    (hbody : body.Match (Twin o o' n) body') :
    Onward o o' n (Twin o o') (st.alloc body) (st'.alloc body') :=
  ⟨n + 1, Nat.le_succ n, h.alloc hbody⟩

end Onward

/-! ### What a class builds -/

namespace Template

/-- Both sides build the template in lockstep. -/
def Twins (o o' : Origin) (t : Template) : Prop :=
  ∀ {n st st'}, Parallel o o' n st st' → Onward o o' n (Twin o o') (t.build st) (t.build st')

theorem buildList_twins {ts : List Template} (ih : ∀ t ∈ ts, t.Twins o o')
    (h : Parallel o o' n st st') :
    Onward o o' n (fun m => List.Forall₂ (Twin o o' m)) (buildList ts st) (buildList ts st') := by
  induction ts generalizing n st st' with
  | nil => exact .stay h .nil
  | cons t ts ihts =>
      rw [List.forall_mem_cons] at ih
      refine (ih.1 h).bind fun m hnm hm hv => ?_
      refine (ihts ih.2 hm).bind fun k hmk hk hvs => ?_
      exact .stay hk (.cons (hv.mono hmk) hvs)

theorem buildEntries_twins {es : List (String × Template)} (ih : ∀ e ∈ es, e.2.Twins o o')
    (h : Parallel o o' n st st') :
    Onward o o' n (TwinEntries o o') (buildEntries es st) (buildEntries es st') := by
  induction es generalizing n st st' with
  | nil => exact .stay h .nil
  | cons e es ihes =>
      rw [List.forall_mem_cons] at ih
      refine (ih.1 h).bind fun m hnm hm hv => ?_
      refine (ihes ih.2 hm).bind fun k hmk hk hvs => ?_
      exact .stay hk (.cons ⟨rfl, hv.mono hmk⟩ hvs)

theorem build_twins (t : Template) : t.Twins o o' := by
  induction t using induct with
  | scalar a => exact fun h => .stay h (.scalar a)
  | date ms => exact fun h => .alloc h (.date ms)
  | list ts ih => exact fun h => (buildList_twins ih h).bind fun m _ hm hvs => .alloc hm (.list hvs)
  | map es ih =>
      exact fun h => (buildEntries_twins ih h).bind fun m _ hm hes => .alloc hm (.map (.ofList hes))
  | ofClass cls es ih =>
      exact fun h => (buildEntries_twins ih h).bind fun m _ hm hes =>
        .alloc hm (.record cls (.ofList hes))

end Template

/-! ### Containers -/

theorem Table.Match.eraseKeys {R : Value → Value → Prop} {t t' : Table Value} (h : t.Match R t')
    (keys : List String) : (PathCopy.eraseKeys t keys).Match R (PathCopy.eraseKeys t' keys) := by
  induction keys generalizing t t' with
  | nil => exact h
  | cons key keys ih => exact ih (h.erase key)

theorem forall₂_setItems {R : Value → Value → Prop} {items items' : List Value}
    {new new' : List (String × Value)} (h : List.Forall₂ R items items')
    (hnew : List.Forall₂ (fun e e' => e'.1 = e.1 ∧ R e.2 e'.2) new new') :
    List.Forall₂ R (setItems items new) (setItems items' new') := by
  induction hnew generalizing items items' with
  | nil => exact h
  | @cons e e' _ _ he _ ih =>
      obtain ⟨key, u⟩ := e
      obtain ⟨key', u'⟩ := e'
      obtain ⟨rfl : key' = key, hu⟩ := he
      rw [setItems_cons, setItems_cons]
      split
      · exact ih (forall₂_set h hu _)
      · exact ih h

theorem Body.Match.fill {R : Value → Value → Prop} {body body' : Body}
    {new new' : List (String × Value)} (h : body.Match R body')
    (hnew : List.Forall₂ (fun e e' => e'.1 = e.1 ∧ R e.2 e'.2) new new') :
    (body.fill new).Match R (body'.fill new') := by
  cases h with
  | date ms => exact .date ms
  | list hitems => exact .list (forall₂_setItems hitems hnew)
  | map hentries => exact .map (hentries.insertAll hnew)
  | record cls hfields => exact .record cls (hfields.insertAll hnew)

def made {α : Type} (x : α × Copying) : α × Store := (x.1, x.2.store)

/-- The copies of containers that match start from contents that match. -/
theorem Copying.base_twins {c c' : Copying} (h : Parallel o o' n c.store c'.store)
    (keepClass : Bool) (dropped : List String) {body body' : Body}
    (hbody : body.Match (Twin o o' n) body') :
    Onward o o' n (fun m => Body.Match (Twin o o' m)) (made (c.base keepClass dropped body))
      (made (c'.base keepClass dropped body')) := by
  cases hbody with
  | date ms => exact .stay h (.date ms)
  | list hitems => exact .stay h (.list hitems)
  | map hentries => exact .stay h (.map (hentries.eraseKeys dropped))
  | record cls hfields =>
      rw [base, base, recordBase_eq, recordBase_eq]
      cases keptDefaults keepClass cls with
      | none => exact .stay h (.record none hfields)
      | some es =>
          have hbuilt := Template.buildEntries_twins (fun e (_ : e ∈ es) => e.2.build_twins) h
          refine hbuilt.bind fun m hnm hm hes => .stay hm (.record cls ?_)
          exact (Table.Match.ofList hes).insertAll (hfields.twin_mono hnm)

/-! ### Copies -/

theorem KeyTree.copy_twins (keepClass : Bool) :
    (∀ (trail : List String) (v : Value) (tree : KeyTree) (c : Copying), ∀ {n v'} {c' : Copying},
      Parallel o o' n c.store c'.store → Twin o o' n v v' →
      Onward o o' n (Twin o o') (made (tree.copy keepClass trail v c))
        (made (tree.copy keepClass trail v' c'))) ∧
    ∀ (trail : List String) (body : Body) (branches : KeyBranches) (c : Copying),
      ∀ {n body'} {c' : Copying}, Parallel o o' n c.store c'.store →
      body.Match (Twin o o' n) body' →
      Onward o o' n (TwinEntries o o') (made (branches.copyChildren keepClass trail body c))
        (made (branches.copyChildren keepClass trail body' c')) := by
  -- The induction is on the steps of the first copy. Each step of the second is the same one.
  refine KeyTree.copy_steps keepClass
    (P := fun trail v tree c x => ∀ {n v'} {c' : Copying}, Parallel o o' n c.store c'.store →
      Twin o o' n v v' → Onward o o' n (Twin o o') (made x)
        (made (tree.copy keepClass trail v' c')))
    (Q := fun trail body branches c x => ∀ {n body'} {c' : Copying},
      Parallel o o' n c.store c'.store → body.Match (Twin o o' n) body' →
      Onward o o' n (TwinEntries o o') (made x)
        (made (branches.copyChildren keepClass trail body' c')))
    ?shared ?scalar ?date ?container ?none ?leaf ?absent ?child
  case shared =>
    intro trail v tree c hleaf n v' c' h hv
    rw [copy_leaf hleaf]
    exact .stay h hv
  case scalar =>
    intro trail a ends branches c hne n v' c' h hv
    rw [h.likeness.scalar hv, copy_scalar hne]
    exact .stay h (.scalar a)
  case date =>
    intro trail r ms ends branches c hne hr n v' c' h hv
    obtain ⟨s, rfl, hmatch⟩ := h.likeness.node hv
    rw [hr] at hmatch
    generalize hs : c'.store.body s = body' at hmatch
    cases hmatch with
    | date ms =>
        rw [copy_date hne hs]
        exact .alloc h (.date ms)
  case container =>
    intro trail r ends branches c first c₁ new c₂ hcopy ih n v' c' h hv
    obtain ⟨s, rfl, hmatch⟩ := h.likeness.node hv
    have hbase := Copying.base_twins h keepClass branches.dropped hmatch
    rw [hcopy.base] at hbase
    rw [copy_container hcopy.passed (hmatch.kind ▸ hcopy.kind)]
    refine hbase.bind fun m hnm hm hfirst => ?_
    refine (ih hm (hmatch.mono fun _ _ _ _ hcd => hcd.mono hnm)).bind fun k hmk hk hes => ?_
    exact .alloc hk ((hfirst.mono fun _ _ _ _ hcd => hcd.mono hmk).fill hes)
  case none =>
    intro trail body c n body' c' h _
    rw [KeyBranches.copyChildren]
    exact .stay h .nil
  case leaf =>
    intro trail body key ends rest c ih n body' c' h hbody
    rw [KeyBranches.copyChildren_leaf]
    exact ih h hbody
  case absent =>
    rintro trail body key tree rest c _ hleaf hchild rfl ih n body' c' h hbody
    have hchild' := hbody.child? key
    rw [hchild] at hchild'
    generalize hc : body'.child? key = found at hchild'
    cases hchild' with
    | none =>
        rw [KeyBranches.copyChildren_absent hleaf hc]
        exact ih h hbody
  case child =>
    intro trail body key tree rest c w w' c₁ new c₂ hcopy ih ihrest n body' c' h hbody
    have hchild' := hbody.child? key
    rw [hcopy.child] at hchild'
    generalize hc : body'.child? key = found at hchild'
    cases hchild' with
    | some hw =>
        rw [KeyBranches.copyChildren_child hcopy.passed hc]
        refine (ih h hw).bind fun m hnm hm hcopied => ?_
        refine (ihrest hm (hbody.mono fun _ _ _ _ hcd => hcd.mono hnm)).bind fun k hmk hk hes => ?_
        exact .stay hk (.cons ⟨rfl, hcopied.mono hmk⟩ hes)

/-- The copies of twins are twins. -/
theorem Store.copy_twins (h : Parallel o o' n st st') (hv : Twin o o' n v v') (keepClass : Bool)
    (paths : List KeyPath) :
    Onward o o' n (Twin o o') (made (st.copy keepClass v paths))
      (made (st'.copy keepClass v' paths)) :=
  (KeyTree.copy_twins keepClass).1 [] v (.ofPaths paths) ⟨st, []⟩ h hv

end PathCopy
