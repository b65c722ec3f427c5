import PathCopy.Proofs.Commands
import PathCopy.Proofs.Fidelity
import PathCopy.Proofs.Singles

/-!
Commands in place. On a value whose containers on the way can be written, a command does in the
store what it does to the tree that describes the value: it succeeds on both or on neither. After
a path copy all these containers can be written, and each command leaves them so.
-/

namespace PathCopy

/-- A step that may fail and the same step on trees: both succeed, with related results, or both
fail, and then not because of a node that is frozen or shared. -/
def Realizes {α β : Type} (P : α → β → Prop) : Option α → Except WriteError β → Prop
  | some a, .ok b => P a b
  | none, .error e => e ≠ .frozen ∧ e ≠ .shared
  | _, _ => False

theorem Realizes.fails {α β : Type} {P : α → β → Prop} {e : WriteError} (hfrozen : e ≠ .frozen)
    (hshared : e ≠ .shared) : Realizes P none (.error e) := ⟨hfrozen, hshared⟩

theorem Realizes.bind {α β γ δ : Type} {P : α → β → Prop} {Q : γ → δ → Prop} {x : Option α}
    {y : Except WriteError β} {f : α → Option γ} {g : β → Except WriteError δ}
    (h : Realizes P x y) (hfg : ∀ a b, x = some a → y = .ok b → P a b → Realizes Q (f a) (g b)) :
    Realizes Q (x.bind f) (y >>= g) := by
  cases x with
  | none =>
      cases y with
      | error e => exact h
      | ok b => exact h.elim
  | some a =>
      cases y with
      | error e => exact h.elim
      | ok b => exact hfg a b rfl rfl h

theorem Realizes.map {α β γ : Type} {P : α → β → Prop} {Q : γ → β → Prop} {x : Option α}
    {y : Except WriteError β} {f : α → γ} (h : Realizes P x y)
    (hf : ∀ a b, y = .ok b → P a b → Q (f a) b) : Realizes Q (x.map f) y := by
  cases x with
  | none =>
      cases y with
      | error e => exact h
      | ok b => exact h.elim
  | some a =>
      cases y with
      | error e => exact h.elim
      | ok b => exact hf a b rfl h

namespace Store

def act (st : Store) (counts : Array ℕ) (v : Value) (key : String) :
    Action → Except WriteError Store
  | .assign a => st.setKey counts v key (.scalar a)
  | .mapSet a => st.mapSet counts v key (.scalar a)
  | .mapDelete => (st.mapDelete counts v key).map Prod.snd

def perform (st : Store) (counts : Array ℕ) (v : Value) (c : Command) :
    Except WriteError Store := do
  let w ← st.follow counts v c.steps
  st.act counts w c.key c.action

end Store

open Store

variable {st st' s : Store} {counts : Array ℕ} {v w : Value} {r q : Ref} {t b b' : Template}
  {step : Step} {steps : List Step} {key : String} {body : Body} {kept others : List Value}
  {paths : List KeyPath} {c : Command}

/-! ### Steps -/

namespace Template

/-- A step that leads to a child of the tree leads to the child that it describes. -/
theorem Describes.child (ht : t.Describes st v) (hclaimed : ∀ r, v = .node r → st.Claimed counts r)
    (step : Step) :
    Realizes (fun c w => c.Describes st w) (t.child? step) (st.child counts v step) := by
  cases v with
  | scalar a =>
      obtain rfl := ht.scalar_inv
      cases step <;> exact .fails (by simp) (by simp)
  | node r =>
      -- The node is claimed, so a write finds a child exactly where the tree has one.
      have hclaim := claim_of_claimed (hclaimed r rfl)
      have hinv := ht.node_inv
      cases hbody : st.body r with
      | date ms =>
          rw [hbody] at hinv
          subst hinv
          cases step <;> simp [Store.child, hbody, child?, Realizes]
      | list items =>
          rw [hbody] at hinv
          obtain ⟨ts, rfl, hts⟩ := hinv
          cases step with
          | entry k => simp [Store.child, hbody, child?, Realizes]
          | key k =>
              simp only [Store.child, hbody, child?, indexOf]
              cases Number.readIndex? k with
              | none => exact .fails (by simp) (by simp)
              | some i =>
                  have hi := hts.getElem? i
                  simp only [Option.bind_some, bind, Except.bind, hclaim]
                  generalize ts[i]? = x at hi ⊢
                  generalize items[i]? = y at hi ⊢
                  cases hi with
                  | none => exact .fails (by simp) (by simp)
                  | some hi => exact hi
      | map entries =>
          rw [hbody] at hinv
          obtain ⟨es, rfl, hes⟩ := hinv
          cases step with
          | key k => simp [Store.child, hbody, child?, Realizes]
          | entry k =>
              have hk := hes.get? k
              simp only [Store.child, hbody, child?, bind, Except.bind, hclaim]
              generalize findEntry k es = x at hk ⊢
              generalize Table.get? _ k = y at hk ⊢
              cases hk with
              | none => exact .fails (by simp) (by simp)
              | some hk => exact hk
      | record cls fields =>
          rw [hbody] at hinv
          obtain ⟨es, rfl, hes⟩ := hinv
          cases step with
          | entry k => simp [Store.child, hbody, child?, Realizes]
          | key k =>
              have hk := hes.get? k
              simp only [Store.child, hbody, child?, bind, Except.bind, hclaim]
              generalize findEntry k es = x at hk ⊢
              generalize Table.get? _ k = y at hk ⊢
              cases hk with
              | none => exact .fails (by simp) (by simp)
              | some hk => exact hk

/-- Steps that lead through the tree lead through the value, as long as the nodes on the way can be
written. -/
theorem Describes.follow (ht : t.Describes st v)
    (hclaimed : ∀ q r, q <+: steps.map Step.text → st.at? v q = some (.node r) →
      st.Claimed counts r) :
    Realizes (fun b w => b.Describes st w) (t.follow steps) (st.follow counts v steps) := by
  induction steps generalizing t v with
  | nil => exact ht
  | cons step steps ih =>
      have hhead : ∀ r, v = .node r → st.Claimed counts r := fun r hr =>
        hclaimed [] r List.nil_prefix (congrArg some hr)
      refine (ht.child hhead step).bind fun c w _ hw hc => ih hc fun q r hq hr => ?_
      obtain ⟨s, rfl, -, hchild⟩ := child_ok hw
      refine hclaimed (step.text :: q) r (List.cons_prefix_cons.mpr ⟨rfl, hq⟩) ?_
      exact at?_cons.mpr ⟨s, w, rfl, hchild, hr⟩

/-- The child under a key is replaced, and the others are described as before. -/
theorem DescribesEntries.replace {es : List (String × Template)} {table : Table Value} {k : String}
    {c' : Template} {siblings : List Value} (hes : DescribesEntries st es table.entries)
    (hw : table.get? k = some w) (hc' : c'.Describes st' w)
    (hothers : ∀ l u, l ≠ k → table.get? l = some u → u ∈ siblings)
    (hagree : ∀ u ∈ siblings, st.AgreeBelow st' u) :
    DescribesEntries st' (replaceEntry k c' es) table.entries := by
  rw [describesEntries_iff] at hes ⊢
  refine List.forall₂_map_left_iff.mpr (forall₂_imp_mem hes ?_)
  rintro e - f hf ⟨hkey, he⟩
  have hfind : table.get? f.1 = some f.2 := findEntry_of_mem table.nodup hf
  refine ⟨hkey, ?_⟩
  by_cases hk : e.1 = k
  · rw [hkey, hk, hw] at hfind
    rw [if_pos hk, ← Option.some.inj hfind]
    exact hc'
  · rw [if_neg hk]
    exact he.agree (hagree f.2 (hothers f.1 f.2 (hkey ▸ hk) hfind))

/-- The element at an index is replaced. The others are those that stand beside it, whatever their
keys are. -/
theorem DescribesList.replace {ts : List Template} {items siblings : List Value} {i : ℕ}
    {c' : Template} (hts : DescribesList st ts items) (hw : items[i]? = some w)
    (hc' : c'.Describes st' w) (hperm : items.Perm (w :: siblings))
    (hagree : ∀ u ∈ siblings, st.AgreeBelow st' u) : DescribesList st' (ts.set i c') items := by
  obtain ⟨hlt, hget⟩ := List.getElem?_eq_some_iff.mp hw
  rw [describesList_iff_getElem?] at hts ⊢
  refine ⟨by rw [List.length_set, hts.1], fun j t u ht hu => ?_⟩
  rw [List.getElem?_set] at ht
  split at ht
  · next hij =>
    subst hij
    rw [if_pos (hts.1 ▸ hlt), Option.some.injEq] at ht
    rw [hw, Option.some.injEq] at hu
    rwa [← ht, ← hu]
  · next hij =>
    have hrest : siblings.Perm (items.eraseIdx i) := by
      have herase := (List.getElem_cons_eraseIdx_perm hlt).symm
      rw [hget] at herase
      exact (hperm.symm.trans herase).cons_inv
    have hmem : u ∈ siblings :=
      hrest.symm.subset (List.mem_eraseIdx_iff_getElem?.mpr ⟨j, Ne.symm hij, hu⟩)
    exact (hts.2 j t u ht hu).agree (hagree u hmem)

theorem Describes.setChild {c' : Template} {siblings : List Value} (ht : t.Describes st (.node r))
    (hw : st.child counts (.node r) step = .ok w) (hbody : st'.body r = st.body r)
    (hc' : c'.Describes st' w) (hperm : (st.children r).Perm (w :: siblings))
    (hothers : ∀ k u, k ≠ step.text → (st.body r).child? k = some u → u ∈ siblings)
    (hagree : ∀ u ∈ siblings, st.AgreeBelow st' u) :
    (t.setChild step c').Describes st' (.node r) := by
  obtain ⟨_, ⟨⟩, -, hchild⟩ := child_ok hw
  have hinv := ht.node_inv
  cases hr : st.body r with
  | date ms =>
      rw [hr] at hchild
      cases hchild
  | map entries =>
      rw [hr] at hinv hchild hothers
      obtain ⟨es, rfl, hes⟩ := hinv
      cases step with
      | key k => simp [Store.child, hr] at hw
      | entry k =>
          exact ⟨r, entries, rfl, hbody.trans hr, hes.replace hchild hc' hothers hagree⟩
  | record cls fields =>
      rw [hr] at hinv hchild hothers
      obtain ⟨es, rfl, hes⟩ := hinv
      cases step with
      | entry k => simp [Store.child, hr] at hw
      | key k => exact ⟨r, fields, rfl, hbody.trans hr, hes.replace hchild hc' hothers hagree⟩
  | list items =>
      rw [Store.children, hr] at hperm
      rw [hr] at hinv hchild
      obtain ⟨ts, rfl, hts⟩ := hinv
      cases step with
      | entry k => simp [Store.child, hr] at hw
      | key k =>
          obtain ⟨i, (hi : Number.readIndex? k = some i), hitem⟩ :=
            Option.bind_eq_some_iff.mp hchild
          simp only [Template.setChild, hi]
          exact ⟨r, items, rfl, hbody.trans hr, hts.replace hitem hc' hperm hagree⟩

theorem Describes.replace (ht : t.Describes st v)
    (hfollow : st.follow counts v steps = .ok (.node q)) (hq : st.Claimed counts q)
    (hcounted : st.Counted counts (v :: others))
    (hb' : b'.Describes (st.setBody q body) (.node q)) :
    (t.replace steps b').Describes (st.setBody q body) v := by
  induction steps generalizing t v others with
  | nil =>
      cases hfollow
      exact hb'
  | cons step steps ih =>
      obtain ⟨w, hw, hrest⟩ := except_bind_ok hfollow
      obtain ⟨r, rfl, hclaimed, hchild⟩ := child_ok hw
      obtain ⟨siblings, hperm, hcounted', halone, hothers⟩ := hcounted.descend hclaimed hchild
      have hchain := chain_of_follow hrest
      have hbeyond := hchain.alone hq hcounted'
      have hne : r ≠ q := by
        rintro rfl
        refine halone w (List.mem_append_left _ ?_) hchain.reaches
        exact Body.mem_children_of_child? hchild
      have hhead : ∀ s, Value.node r = .node s → st.Claimed counts s := by
        rintro s ⟨⟩
        exact hclaimed
      have hstep := ht.child hhead step
      rw [hw] at hstep
      rw [Template.replace]
      cases hc : t.child? step with
      | none =>
          rw [hc] at hstep
          exact hstep.elim
      | some c =>
          rw [hc] at hstep
          have hnew := ih hstep hrest hcounted'
          refine ht.setChild hw (body_setBody_of_ne hne) hnew hperm hothers fun u hu => ?_
          refine agreeBelow_setBody (hbeyond u (List.mem_append_right _ ?_))
          exact List.mem_append_left _ hu

end Template

/-! ### Actions -/

/-- Other contents that refer to no more nodes: where a child is a node, it was there before. -/
structure Body.Sheds (body body' : Body) : Prop where
  child : ∀ {k : String} {q : Ref}, body'.child? k = some (.node q) →
    body.child? k = some (.node q)
  occurrences : ∀ q : Ref, occurrences q body'.children ≤ occurrences q body.children

theorem Body.Sheds.mem_children {body body' : Body} (h : body.Sheds body')
    (hq : .node q ∈ body'.children) : .node q ∈ body.children :=
  occurrences_pos.mp (Nat.lt_of_lt_of_le (occurrences_pos.mpr hq) (h.occurrences q))

theorem Body.Differs.sheds {body body' : Body} {a : Scalar} (h : body.Differs key [.scalar a] body')
    (hoccurrences : ∀ q, occurrences q body'.children ≤
      occurrences q body.children + occurrences q [.scalar a]) : body.Sheds body' where
  child {k q} hk := by
    by_cases hkey : k = key
    · rw [hkey, h.present _ List.mem_cons_self] at hk
      cases hk
    · rwa [← h.child k hkey]
  occurrences := hoccurrences

theorem Body.sheds_erase_entry (entries : Table Value) (key : String) :
    (Body.map entries).Sheds (.map (entries.erase key)) where
  child {k q} hk := by
    rw [Body.child?, Table.get?_erase] at hk
    split at hk
    · cases hk
    · exact hk
  occurrences q := (List.filter_sublist.map Prod.snd).countP_le

namespace Template

/-- The tree describes the value in the store, which has other contents in the node of the value.
They refer to no more nodes. -/
def Acts (st : Store) (w : Value) (b' : Template) (s' : Store) : Prop :=
  ∃ r body, w = .node r ∧ s' = st.setBody r body ∧ (st.body r).Sheds body ∧ b'.Describes s' w

section Acts

variable {es : List (String × Template)} {ts : List Template} {entries fields : Table Value}
  {items : List Value} {cls : Option Class}

theorem DescribesEntries.setBody {table : Table Value}
    (hes : DescribesEntries st es table.entries) (htable : st.children r = table.values)
    (halone : ∀ c ∈ st.children r, ¬ st.Reaches c (.node r)) :
    List.Forall₂ (fun e f => f.1 = e.1 ∧ e.2.Describes (st.setBody r body) f.2) es
      table.entries := by
  refine forall₂_imp_mem (describesEntries_iff.mp hes) fun e _ f hf he => ⟨he.1, ?_⟩
  exact he.2.agree (agreeBelow_setBody (halone f.2 (htable ▸ List.mem_map_of_mem hf)))

variable (hclaimed : st.Claimed counts r) (halone : ∀ c ∈ st.children r, ¬ st.Reaches c (.node r))
  (key : String) (a : Action)

include hclaimed halone

theorem DescribesEntries.act_map (hes : DescribesEntries st es entries.entries)
    (hbody : st.body r = .map entries) :
    Realizes (Acts st (.node r)) (act (.map es) key a) (st.act counts (.node r) key a) := by
  have hclaim := claim_of_claimed hclaimed
  have hlt := hclaimed.index_lt
  have hchildren : st.children r = entries.values := by rw [children, hbody, Body.children]
  cases a with
  | assign a => simp [Store.act, setKey, hbody, act, Realizes]
  | mapSet a =>
      simp only [Store.act, mapSet, hbody, hclaim, bind, Except.bind, act]
      refine ⟨r, _, rfl, rfl, ?_, r, _, rfl, body_setBody_self hlt, ?_⟩
      · exact hbody ▸ (Body.differs_insert_entry entries key (.scalar a)).sheds fun q =>
          occurrences_putEntry
      · exact describesEntries_iff.mpr (forall₂_putEntry (hes.setBody hchildren halone)
          (describes_scalar _ a))
  | mapDelete =>
      simp only [Store.act, mapDelete, hbody, hclaim, bind, Except.bind, Except.map, act]
      refine ⟨r, _, rfl, rfl, hbody ▸ Body.sheds_erase_entry entries key,
        r, _, rfl, body_setBody_self hlt, ?_⟩
      exact describesEntries_iff.mpr (forall₂_filter_ne (hes.setBody hchildren halone))

theorem DescribesEntries.act_record (hes : DescribesEntries st es fields.entries)
    (hbody : st.body r = .record cls fields) :
    Realizes (Acts st (.node r)) (act (.ofClass cls es) key a) (st.act counts (.node r) key a) := by
  have hclaim := claim_of_claimed hclaimed
  have hlt := hclaimed.index_lt
  have hchildren : st.children r = fields.values := by rw [children, hbody, Body.children]
  cases a with
  | mapSet a => simp [Store.act, mapSet, hbody, act, Realizes]
  | mapDelete => simp [Store.act, mapDelete, hbody, act, Realizes, Except.map]
  | assign a =>
      simp only [Store.act, setKey, hbody, hclaim, bind, Except.bind, act]
      refine ⟨r, _, rfl, rfl, ?_, r, _, rfl, body_setBody_self hlt, ?_⟩
      · exact hbody ▸ (Body.differs_insert_fields cls fields key (.scalar a)).sheds fun q =>
          occurrences_putEntry
      · exact describesEntries_iff.mpr (forall₂_putEntry (hes.setBody hchildren halone)
          (describes_scalar _ a))

theorem DescribesList.act (hts : DescribesList st ts items) (hbody : st.body r = .list items) :
    Realizes (Acts st (.node r)) (act (.list ts) key a) (st.act counts (.node r) key a) := by
  have hclaim := claim_of_claimed hclaimed
  have hlt := hclaimed.index_lt
  have hchildren : st.children r = items := by rw [children, hbody, Body.children]
  have hitems : ∀ {body : Body}, List.Forall₂ (Describes (st.setBody r body)) ts items :=
    fun {body} => forall₂_imp_mem (describesList_iff.mp hts) fun t _ c hc ht =>
      ht.agree (agreeBelow_setBody (halone c (hchildren ▸ hc)))
  cases a with
  | mapSet a => simp [Store.act, mapSet, hbody, Template.act, Realizes]
  | mapDelete => simp [Store.act, mapDelete, hbody, Template.act, Realizes, Except.map]
  | assign a =>
      simp only [Store.act, setKey, hbody, Template.act, indexOf]
      cases hi : Number.readIndex? key with
      | none => exact .fails (by simp) (by simp)
      | some i =>
          have hlength : ts.length = items.length := (describesList_iff.mp hts).length_eq
          simp only [Option.bind_some, bind, Except.bind, hclaim, hlength]
          by_cases hlt' : i < items.length
          · rw [if_pos hlt', if_pos hlt']
            refine ⟨r, _, rfl, rfl, ?_, r, _, rfl, body_setBody_self hlt, ?_⟩
            · exact hbody ▸ (Body.differs_set_item items hi hlt' (.scalar a)).sheds fun q =>
                occurrences_set items i
            · exact describesList_iff.mpr (forall₂_set hitems (describes_scalar _ a) i)
          · rw [if_neg hlt', if_neg hlt']
            by_cases heq : i = items.length
            · rw [if_pos heq, if_pos heq]
              refine ⟨r, _, rfl, rfl, ?_, r, _, rfl, body_setBody_self hlt, ?_⟩
              · exact hbody ▸ (Body.differs_append_item items (heq ▸ hi) (.scalar a)).sheds fun q =>
                  (occurrences_append q _ _).le
              · exact describesList_iff.mpr (List.rel_append hitems
                  (.cons (describes_scalar _ a) .nil))
            · rw [if_neg heq, if_neg heq]
              exact .fails (by simp) (by simp)

end Acts

/-- An action on a container that can be written, and that nothing inside it leads back to. -/
theorem Describes.act (hb : b.Describes st w) (hclaimed : ∀ r, w = .node r → st.Claimed counts r)
    (halone : ∀ r, w = .node r → ∀ c ∈ st.children r, ¬ st.Reaches c (.node r)) (key : String)
    (a : Action) : Realizes (Acts st w) (b.act key a) (st.act counts w key a) := by
  cases w with
  | scalar c =>
      obtain rfl := hb.scalar_inv
      cases a <;> exact .fails (by simp) (by simp)
  | node r =>
      have hinv := hb.node_inv
      cases hbody : st.body r with
      | date ms =>
          rw [hbody] at hinv
          subst hinv
          cases a <;> simp [Store.act, setKey, mapSet, mapDelete, hbody, Template.act, Realizes,
            Except.map]
      | map entries =>
          rw [hbody] at hinv
          obtain ⟨es, rfl, hes⟩ := hinv
          exact hes.act_map (hclaimed r rfl) (halone r rfl) key a hbody
      | record cls fields =>
          rw [hbody] at hinv
          obtain ⟨es, rfl, hes⟩ := hinv
          exact hes.act_record (hclaimed r rfl) (halone r rfl) key a hbody
      | list items =>
          rw [hbody] at hinv
          obtain ⟨ts, rfl, hts⟩ := hinv
          exact hts.act (hclaimed r rfl) (halone r rfl) key a hbody

end Template

/-! ### Commands -/

/-- A write that refers to no more nodes leads to no node at a new position. -/
theorem Store.at?_of_sheds {ks : List String} (hr : r.index < st.size)
    (hsheds : (st.body r).Sheds body) (h : (st.setBody r body).at? v ks = some (.node q)) :
    st.at? v ks = some (.node q) := by
  induction ks generalizing v with
  | nil => exact h
  | cons k ks ih =>
      obtain ⟨s, u, rfl, hchild, hu⟩ := at?_cons.mp h
      have hnode : ∃ z, u = .node z := by
        cases u with
        | node z => exact ⟨z, rfl⟩
        | scalar a => cases ks <;> cases hu
      obtain ⟨z, rfl⟩ := hnode
      refine at?_cons.mpr ⟨s, .node z, rfl, ?_, ih hu⟩
      by_cases hsr : s = r
      · subst hsr
        rw [body_setBody_self hr] at hchild
        exact hsheds.child hchild
      · rwa [body_setBody_of_ne hsr] at hchild

/-- A store in which `v` was copied from another one: wherever a path goes on, the nodes of `v` are
new, unfrozen, and mentioned once. -/
structure Store.Opened (st : Store) (kept : List Value) (paths : List KeyPath) (v : Value)
    (s : Store) : Prop where
  grown : st.Grown kept s
  available : st.Available kept s v
  singly : Singly st.size s [v]
  unfrozen : ∀ {r : Ref}, st.size ≤ r.index → r.index < s.size → (s.node r).frozen = false
  fresh : ∀ {ks : List String} {r : Ref}, Passed paths ks → s.at? v ks = some (.node r) →
    st.size ≤ r.index

theorem Store.opened_copy (hsound : st.Sound kept) (keepClass : Bool) (hv : st.Within kept v)
    (hclass : st.ClassFree v) (ht : t.Describes st v) (paths : List KeyPath) :
    st.Opened kept paths (st.copy keepClass v paths).1 (st.copy keepClass v paths).2.store := by
  have hadds := st.copy_adds hsound keepClass hv paths
  obtain ⟨hsingly, hunfrozen⟩ := copy_singly hsound keepClass hv paths
  refine ⟨hadds.grown, hadds.available _ List.mem_cons_self, hsingly, fun hr => hunfrozen _ hr, ?_⟩
  intro ks r hpassed hr
  have hlays := st.copy_lays hsound keepClass hv paths
  -- The copy has no positions that the value does not have.
  have hpresent : (st.at? v ks).isSome := by
    have hcopy := (st.copy_thinned hsound keepClass hv hclass paths ht).isSome_at? ks
    rw [hr] at hcopy
    rw [← ht.isSome_at?]
    exact Template.isSome_at?_of_thin hcopy
  obtain ⟨w, hw⟩ := Option.isSome_iff_exists.mp hpresent
  have hlost : ¬ st.Lost v paths ks := by
    intro hlost
    rw [hlays.dropped hw (KeyTree.drops_ofPaths.mpr hlost)] at hr
    cases hr
  obtain ⟨w', hw', hnew, hold⟩ := copy_kept hsound keepClass hv hw hlost
  rw [hr] at hw'
  cases hw'
  cases w with
  | scalar a => cases hold fun hboth => by cases hboth.1
  | node q =>
      obtain ⟨s, hs, hle, -⟩ := hnew rfl hpassed
      cases hs
      exact hle

namespace Store.Opened

theorem claimed (h : st.Opened kept paths v s) (hsound : st.Sound kept)
    (hcounted : s.Counted counts (v :: others)) (hothers : ∀ u ∈ others, st.Within kept u)
    {ks : List String} (hpassed : Passed paths ks) (hr : s.at? v ks = some (.node r)) :
    s.Claimed counts r := by
  have hnew := h.fresh hpassed hr
  have hreach := reaches_of_at? hr
  have hlt : r.index < s.size :=
    h.grown.index_lt hsound (h.grown.available_of_reaches hsound h.available hreach)
  refine ⟨h.unfrozen hnew hlt, ?_⟩
  rw [hcounted r hlt ⟨v, List.mem_cons_self, hreach⟩]
  exact h.singly.places_le_one hsound h.grown h.available hothers hnew

theorem setBody (h : st.Opened kept paths v s) (hsound : st.Sound kept)
    (hnew : st.size ≤ r.index) (hr : r.index < s.size) (hsheds : (s.body r).Sheds body) :
    st.Opened kept paths v (s.setBody r body) where
  grown := h.grown.setBody hnew fun c hc => by
    cases c with
    | scalar a => exact available_scalar a
    | node q =>
        refine h.grown.available_child hsound (.inr ⟨r, rfl, hnew, hr⟩) ?_
        exact hsheds.mem_children hc
  available := h.available.mono (by simp)
  singly := h.singly.setBody hr hsheds.occurrences
  unfrozen hq hlt := by
    rw [frozen_setBody]
    exact h.unfrozen hq (by simpa using hlt)
  fresh hpassed hq := h.fresh hpassed (at?_of_sheds hr hsheds hq)

/-- A command at one of the paths does in the store what it does on the tree. -/
theorem perform (h : st.Opened kept paths v s) (hsound : st.Sound kept) (ht : t.Describes s v)
    (hcounted : s.Counted counts (v :: others)) (hothers : ∀ u ∈ others, st.Within kept u)
    (hc : c.path ∈ paths) :
    Realizes (fun t' s' => st.Opened kept paths v s' ∧ t'.Describes s' v) (t.perform c)
      (s.perform counts v c) := by
  have hpassed : ∀ {ks}, ks <+: c.steps.map Step.text → Passed paths ks := by
    intro ks hks
    refine ⟨c.path, hc, hks.trans (List.prefix_append _ _), ?_⟩
    rintro rfl
    have hlength := hks.length_le
    simp [Command.path, Command.keys] at hlength
  have hclaimed : ∀ ks r, ks <+: c.steps.map Step.text → s.at? v ks = some (.node r) →
      s.Claimed counts r := fun ks r hks hr => h.claimed hsound hcounted hothers (hpassed hks) hr
  refine (ht.follow hclaimed).bind fun b w _ hw hb => ?_
  have hchain := chain_of_follow hw
  have hend : ∀ r, w = .node r → s.Claimed counts r ∧ st.size ≤ r.index := by
    rintro r rfl
    exact ⟨hclaimed _ r (List.prefix_refl _) hchain.at?_eq,
      h.fresh (hpassed (List.prefix_refl _)) hchain.at?_eq⟩
  have halone : ∀ r, w = .node r → ∀ u ∈ s.children r, ¬ s.Reaches u (.node r) := by
    rintro r rfl u hu
    exact hchain.alone (hend r rfl).1 hcounted u (List.mem_append_left _ hu)
  refine (hb.act (fun r hr => (hend r hr).1) halone c.key c.action).map fun b' s' _ => ?_
  rintro ⟨r, body, rfl, rfl, hsheds, hb'⟩
  obtain ⟨hwrite, hnew⟩ := hend r rfl
  exact ⟨h.setBody hsound hnew hwrite.index_lt hsheds, ht.replace hw hwrite hcounted hb'⟩

end Store.Opened

end PathCopy
