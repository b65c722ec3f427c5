import PathCopy.Proofs.Children
import PathCopy.Proofs.Handles
import PathCopy.Proofs.Outcomes

/-!
Writes in place. A write starts at the value of a variable and follows a chain of nodes that have
one handle each, so nothing outside the chain leads to the node that it changes. Whoever holds
another value sees no difference, and neither does a position that parts from the keys of the write.
-/

namespace PathCopy

/-- Two rows of keys part: they have different keys at some place that both have. -/
def Diverge : List String → List String → Prop
  | k :: keys, l :: others => k ≠ l ∨ Diverge keys others
  | _, _ => False

namespace Store

/-- What a row of keys leads to, through children that are there. -/
def at? (st : Store) (v : Value) : List String → Option Value
  | [] => some v
  | key :: keys => match v with
    | .scalar _ => none
    | .node r => ((st.body r).child? key).bind fun w => st.at? w keys

/-- A node that can be written: it is not frozen and has at most one handle. -/
structure Claimed (st : Store) (counts : Array Nat) (r : Ref) : Prop where
  unfrozen : (st.node r).frozen = false
  sole : counts.getD r.index 0 ≤ 1

/-- Keys that lead from one value to another through nodes that can be written. -/
inductive Chain (st : Store) (counts : Array Nat) : Value → List String → Value → Prop
  | here (v : Value) : Chain st counts v [] v
  | step {r : Ref} {key : String} {keys : List String} {v w : Value} (claimed : st.Claimed counts r)
      (child : (st.body r).child? key = some v) (rest : Chain st counts v keys w) :
      Chain st counts (.node r) (key :: keys) w

/-- A write in place below `v`: a chain leads to a node, and the contents of the node are replaced
by others that differ from them in what the last key leads to. -/
inductive Written (st : Store) (counts : Array Nat) (v : Value) (new : List Value) :
    List String → Store → Prop
  | intro {t : Ref} {keys : List String} {last : String} {body : Body}
      (chain : st.Chain counts v keys (.node t)) (claimed : st.Claimed counts t)
      (differs : (st.body t).Differs last new body) :
      Written st counts v new (keys ++ [last]) (st.setBody t body)

variable {st st' : Store} {counts : Array Nat} {u v w new : Value} {values others : List Value}
  {r t : Ref} {body : Body} {key last : String} {keys q : List String} {step : Step}
  {steps : List Step}

/-! ### Places -/

theorem at?_cons :
    st.at? v (key :: q) = some w ↔
      ∃ r c, v = .node r ∧ (st.body r).child? key = some c ∧ st.at? c q = some w := by
  cases v with
  | scalar a => simp [at?]
  | node r => simp [at?, Option.bind_eq_some_iff]

theorem reaches_of_at? (h : st.at? v q = some w) : st.Reaches v w := by
  induction q generalizing v with
  | nil =>
      cases h
      exact reaches_refl st _
  | cons key q ih =>
      obtain ⟨r, c, rfl, hchild, hc⟩ := at?_cons.mp h
      exact (reaches_of_mem_children (Body.mem_children_of_child? hchild)).trans (ih hc)

/-! ### The operations of a store -/

theorem claimed_of_claim (h : st.claim counts r = .ok ()) : st.Claimed counts r := by
  unfold claim at h
  split at h
  · simp at h
  · next hfrozen =>
    split at h
    · simp at h
    · next hone => exact ⟨by simpa using hfrozen, Nat.le_of_not_lt hone⟩

theorem claim_of_claimed (h : st.Claimed counts r) : st.claim counts r = .ok () := by
  rw [claim, if_neg (by simp [h.unfrozen]), if_neg (Nat.not_lt_of_le h.sole)]

theorem Claimed.index_lt (h : st.Claimed counts r) : r.index < st.size := by
  rcases Nat.lt_or_ge r.index st.size with hlt | hge
  · exact hlt
  · have hfrozen := h.unfrozen
    rw [node_of_size_le st r hge] at hfrozen
    simp at hfrozen

theorem indexOf_ok {i : ℕ} (h : indexOf key = .ok i) : Number.readIndex? key = some i := by
  unfold indexOf at h
  split at h
  · next hread =>
    cases h
    exact hread
  · simp at h

/-- A step of a write goes through a node that can be written, to the child under its key. -/
theorem child_ok (h : st.child counts v step = .ok w) :
    ∃ r, v = .node r ∧ st.Claimed counts r ∧ (st.body r).child? step.text = some w := by
  cases v with
  | scalar a => cases h
  | node r =>
      refine ⟨r, rfl, ?_⟩
      -- A key leads into a record or a list, an entry into a map. Every other pair fails at once.
      cases step with
      | key k =>
          cases hbody : st.body r with
          | date ms => simp [child, hbody] at h
          | map entries => simp [child, hbody] at h
          | record cls fields =>
              simp only [child, hbody] at h
              obtain ⟨_, hclaim, h⟩ := except_bind_ok h
              refine ⟨claimed_of_claim hclaim, ?_⟩
              split at h
              · next hget =>
                cases h
                exact hget
              · simp at h
          | list items =>
              simp only [child, hbody] at h
              obtain ⟨i, hindex, h⟩ := except_bind_ok h
              obtain ⟨_, hclaim, h⟩ := except_bind_ok h
              refine ⟨claimed_of_claim hclaim, ?_⟩
              rw [Step.text, Body.child?, indexOf_ok hindex]
              split at h
              · next hget =>
                cases h
                exact hget
              · simp at h
      | entry k =>
          cases hbody : st.body r with
          | date ms => simp [child, hbody] at h
          | list items => simp [child, hbody] at h
          | record cls fields => simp [child, hbody] at h
          | map entries =>
              simp only [child, hbody] at h
              obtain ⟨_, hclaim, h⟩ := except_bind_ok h
              refine ⟨claimed_of_claim hclaim, ?_⟩
              split at h
              · next hget =>
                cases h
                exact hget
              · simp at h

theorem follow_append (st : Store) (counts : Array Nat) (v : Value) (steps others : List Step) :
    st.follow counts v (steps ++ others) =
      st.follow counts v steps >>= fun w => st.follow counts w others := by
  induction steps generalizing v with
  | nil => rfl
  | cons step steps ih =>
      rw [List.cons_append, follow, follow]
      cases st.child counts v step with
      | error e => rfl
      | ok w => exact ih w

theorem chain_of_follow (h : st.follow counts v steps = .ok w) :
    st.Chain counts v (steps.map Step.text) w := by
  induction steps generalizing v with
  | nil =>
      cases h
      exact .here _
  | cons step steps ih =>
      obtain ⟨u, hu, hrest⟩ := except_bind_ok h
      obtain ⟨r, rfl, hclaimed, hchild⟩ := child_ok hu
      exact .step hclaimed hchild (ih hrest)

theorem setKey_cases (h : st.setKey counts v key new = .ok st') :
    ∃ r body, v = .node r ∧ st.Claimed counts r ∧ (st.body r).Assigned key new body ∧
      st' = st.setBody r body := by
  cases v with
  | scalar a => cases h
  | node r =>
      cases hbody : st.body r with
      | date ms => simp [setKey, hbody] at h
      | map entries => simp [setKey, hbody] at h
      | record cls fields =>
          simp only [setKey, hbody] at h
          obtain ⟨_, hclaim, h⟩ := except_bind_ok h
          cases h
          exact ⟨r, _, rfl, claimed_of_claim hclaim, hbody ▸ .field cls fields, rfl⟩
      | list items =>
          simp only [setKey, hbody] at h
          obtain ⟨i, hindex, h⟩ := except_bind_ok h
          obtain ⟨_, hclaim, h⟩ := except_bind_ok h
          have hread := indexOf_ok hindex
          split at h
          · next hlt =>
            cases h
            exact ⟨r, _, rfl, claimed_of_claim hclaim, hbody ▸ .item hread hlt, rfl⟩
          · split at h
            · next hlength =>
              cases h
              exact ⟨r, _, rfl, claimed_of_claim hclaim, hbody ▸ .append (hlength ▸ hread), rfl⟩
            · simp at h

theorem setKey_ok (h : st.setKey counts v key new = .ok st') :
    ∃ r body, v = .node r ∧ st.Claimed counts r ∧ (st.body r).Differs key [new] body ∧
      st' = st.setBody r body := by
  obtain ⟨r, body, rfl, hclaimed, hassigned, rfl⟩ := setKey_cases h
  exact ⟨r, body, rfl, hclaimed, hassigned.differs, rfl⟩

theorem mapSet_ok (h : st.mapSet counts v key new = .ok st') :
    ∃ r body, v = .node r ∧ st.Claimed counts r ∧ (st.body r).Differs key [new] body ∧
      st' = st.setBody r body := by
  cases v with
  | scalar a => cases h
  | node r =>
      cases hbody : st.body r with
      | date ms => simp [mapSet, hbody] at h
      | list items => simp [mapSet, hbody] at h
      | record cls fields => simp [mapSet, hbody] at h
      | map entries =>
          simp only [mapSet, hbody] at h
          obtain ⟨_, hclaim, h⟩ := except_bind_ok h
          cases h
          exact ⟨r, _, rfl, claimed_of_claim hclaim,
            hbody ▸ Body.differs_insert_entry entries key new, rfl⟩

theorem mapDelete_ok {removed : Bool} (h : st.mapDelete counts v key = .ok (removed, st')) :
    ∃ r body, v = .node r ∧ st.Claimed counts r ∧ (st.body r).Differs key [] body ∧
      st' = st.setBody r body := by
  cases v with
  | scalar a => cases h
  | node r =>
      cases hbody : st.body r with
      | date ms => simp [mapDelete, hbody] at h
      | list items => simp [mapDelete, hbody] at h
      | record cls fields => simp [mapDelete, hbody] at h
      | map entries =>
          simp only [mapDelete, hbody] at h
          obtain ⟨_, hclaim, h⟩ := except_bind_ok h
          cases h
          exact ⟨r, _, rfl, claimed_of_claim hclaim,
            hbody ▸ Body.differs_erase_entry entries key, rfl⟩

theorem differs_setChild (h : st.child counts (.node r) step = .ok w) :
    (st.body r).Differs step.text [new] ((st.body r).setChild step new) := by
  cases step with
  | key k =>
      cases hbody : st.body r with
      | date ms => simp [child, hbody] at h
      | map entries => simp [child, hbody] at h
      | record cls fields => exact Body.differs_insert_fields cls fields k new
      | list items =>
          simp only [child, hbody] at h
          obtain ⟨i, hindex, h⟩ := except_bind_ok h
          obtain ⟨_, -, h⟩ := except_bind_ok h
          have hread := indexOf_ok hindex
          split at h
          · next hget =>
            rw [Body.setChild, hread]
            exact Body.differs_set_item items hread (List.getElem?_eq_some_iff.mp hget).1 new
          · simp at h
  | entry k =>
      cases hbody : st.body r with
      | date ms => simp [child, hbody] at h
      | list items => simp [child, hbody] at h
      | record cls fields => simp [child, hbody] at h
      | map entries => exact Body.differs_insert_entry entries k new

theorem replaceChild_ok (h : st.replaceChild counts v step new = .ok st') :
    ∃ r body, v = .node r ∧ st.Claimed counts r ∧ (st.body r).Differs step.text [new] body ∧
      st' = st.setBody r body := by
  obtain ⟨w, hchild, h⟩ := except_bind_ok h
  obtain ⟨r, rfl, hclaimed, -⟩ := child_ok hchild
  cases h
  exact ⟨r, _, rfl, hclaimed, differs_setChild hchild, rfl⟩

/-! ### Chains -/

theorem Chain.reaches (h : st.Chain counts v keys w) : st.Reaches v w := by
  induction h with
  | here v => exact reaches_refl st v
  | step _ hchild _ ih =>
      exact (reaches_of_mem_children (Body.mem_children_of_child? hchild)).trans ih

/-- One step of a chain under counts that are right: the counts are right for the child and what
stands beside it, and nothing of this leads back to the node. -/
theorem Counted.descend (h : st.Counted counts (.node r :: others)) (hclaimed : st.Claimed counts r)
    (hchild : (st.body r).child? key = some v) :
    ∃ siblings, (st.children r).Perm (v :: siblings) ∧
      st.Counted counts (v :: (siblings ++ others)) ∧
      (∀ u ∈ st.children r ++ others, ¬st.Reaches u (.node r)) ∧
      ∀ k c, k ≠ key → (st.body r).child? k = some c → c ∈ siblings := by
  obtain ⟨siblings, hperm, hmem⟩ := Body.children_split hchild
  have halone := h.alone hclaimed.index_lt hclaimed.sole
  have hopen := h.open hclaimed.index_lt halone
  exact ⟨siblings, hperm, hopen.perm (hperm.append_right others), halone, hmem⟩

/-- Neither the other roots nor its own children lead to the end of a chain. -/
theorem Chain.alone (h : st.Chain counts v keys (.node t)) (ht : st.Claimed counts t)
    (hcounted : st.Counted counts (v :: others)) :
    ∀ u ∈ st.children t ++ others, ¬st.Reaches u (.node t) := by
  generalize hw : Value.node t = w at h
  induction h generalizing others with
  | here v =>
      subst hw
      exact hcounted.alone ht.index_lt ht.sole
  | step hclaimed hchild _ ih =>
      obtain ⟨siblings, -, hrest, -, -⟩ := hcounted.descend hclaimed hchild
      intro u hu
      rw [List.mem_append] at hu
      refine ih hrest hw u (List.mem_append.mpr (hu.imp id ?_))
      exact List.mem_append_right siblings

theorem at?_setBody (h : ¬st.Reaches v (.node t)) :
    (st.setBody t body).at? v q = st.at? v q := by
  induction q generalizing v with
  | nil => rfl
  | cons k q ih =>
      cases v with
      | scalar a => rfl
      | node r =>
          have hne : r ≠ t := fun he => h (he ▸ reaches_refl st _)
          rw [at?, at?, body_setBody_of_ne hne]
          cases hchild : (st.body r).child? k with
          | none => rfl
          | some c =>
              refine ih fun hreach => h ?_
              exact (reaches_of_mem_children (Body.mem_children_of_child? hchild)).trans hreach

/-- A write at the end of a chain is not seen at a position that parts from its keys. -/
theorem Chain.at?_setBody (h : st.Chain counts v keys (.node t)) (ht : st.Claimed counts t)
    (hcounted : st.Counted counts (v :: others)) (hbody : (st.body t).Differs last values body)
    (hq : Diverge (keys ++ [last]) q) : (st.setBody t body).at? v q = st.at? v q := by
  generalize hw : Value.node t = w at h
  induction h generalizing others q with
  | here v =>
      subst hw
      cases q with
      | nil => exact hq.elim
      | cons k q =>
          have hk : last ≠ k := hq.elim id nofun
          rw [at?, at?, body_setBody_self ht.index_lt, hbody.child k hk.symm]
          cases hchild : (st.body t).child? k with
          | none => rfl
          | some c =>
              refine Store.at?_setBody (hcounted.alone ht.index_lt ht.sole c ?_)
              exact List.mem_append_left _ (Body.mem_children_of_child? hchild)
  | @step r key keys v w hclaimed hchild hrest ih =>
      subst hw
      obtain ⟨siblings, hperm, hcounted', halone, hmem⟩ := hcounted.descend hclaimed hchild
      have hback := hrest.alone ht hcounted'
      have hne : r ≠ t := by
        rintro rfl
        exact halone v (List.mem_append_left _ (Body.mem_children_of_child? hchild)) hrest.reaches
      cases q with
      | nil => exact hq.elim
      | cons k q =>
          rw [at?, at?, body_setBody_of_ne hne]
          by_cases hk : k = key
          · subst hk
            rw [hchild]
            refine ih hcounted' ?_ rfl
            exact hq.resolve_left fun hkk => hkk rfl
          · cases hother : (st.body r).child? k with
            | none => rfl
            | some c =>
                refine Store.at?_setBody (hback c (List.mem_append_right _ ?_))
                exact List.mem_append_left _ (hmem k c hk hother)

theorem Chain.at?_setBody_above (h : st.Chain counts v keys (.node t)) (ht : st.Claimed counts t)
    (hcounted : st.Counted counts (v :: others)) (hq : q <+: keys) :
    (st.setBody t body).at? v q = st.at? v q := by
  generalize hw : Value.node t = w at h
  induction h generalizing others q with
  | here v =>
      cases List.prefix_nil.mp hq
      rfl
  | @step r key keys v w hclaimed hchild hrest ih =>
      subst hw
      cases q with
      | nil => rfl
      | cons k q =>
          obtain ⟨rfl, hrestq⟩ := List.cons_prefix_cons.mp hq
          obtain ⟨siblings, -, hcounted', halone, -⟩ := hcounted.descend hclaimed hchild
          have hne : r ≠ t := by
            rintro rfl
            exact halone v (List.mem_append_left _ (Body.mem_children_of_child? hchild))
              hrest.reaches
          rw [at?, at?, body_setBody_of_ne hne, hchild]
          exact ih hcounted' hrestq rfl

theorem Chain.at?_eq (h : st.Chain counts v keys w) : st.at? v keys = some w := by
  induction h with
  | here v => rfl
  | step _ hchild _ ih => exact at?_cons.mpr ⟨_, _, rfl, hchild, ih⟩

theorem at?_append (st : Store) (v : Value) (p q : List String) :
    st.at? v (p ++ q) = (st.at? v p).bind fun w => st.at? w q := by
  induction p generalizing v with
  | nil => rfl
  | cons k p ih =>
      cases v with
      | scalar a => rfl
      | node r =>
          rw [List.cons_append, at?, at?, Option.bind_assoc]
          exact Option.bind_congr fun c _ => ih c

/-! ### Writes -/

/-- What a write does, seen from outside of its chain. -/
theorem Written.exists_setBody (h : st.Written counts v values keys st')
    (hcounted : st.Counted counts (v :: others)) :
    ∃ t body, st' = st.setBody t body ∧ st.Claimed counts t ∧ st.Reaches v (.node t) ∧
      (∀ u ∈ st.children t ++ others, ¬st.Reaches u (.node t)) ∧
      ∀ c ∈ body.children, c ∈ st.children t ∨ c ∈ values := by
  obtain ⟨hchain, hclaimed, hdiffers⟩ := h
  exact ⟨_, _, rfl, hclaimed, hchain.reaches, hchain.alone hclaimed hcounted, hdiffers.children⟩

theorem Written.at?_eq (h : st.Written counts v values keys st')
    (hcounted : st.Counted counts (v :: others)) (hq : Diverge keys q) :
    st'.at? v q = st.at? v q := by
  obtain ⟨hchain, hclaimed, hdiffers⟩ := h
  exact hchain.at?_setBody hclaimed hcounted hdiffers hq

theorem Written.kind_eq (h : st.Written counts v values keys st') (u : Value) :
    st'.kind u = st.kind u := by
  obtain @⟨t, _, _, body, hchain, hclaimed, hdiffers⟩ := h
  cases u with
  | scalar a => rfl
  | node r =>
      rw [kind, kind]
      by_cases hr : r = t
      · rw [hr, body_setBody_self hclaimed.index_lt, hdiffers.kind]
      · rw [body_setBody_of_ne hr]

theorem Written.at?_above (h : st.Written counts v values keys st')
    (hcounted : st.Counted counts (v :: others)) (hq : q <+: keys.dropLast) :
    st'.at? v q = st.at? v q := by
  obtain ⟨hchain, hclaimed, -⟩ := h
  rw [List.dropLast_concat] at hq
  exact hchain.at?_setBody_above hclaimed hcounted hq

theorem Written.at?_self (h : st.Written counts v values keys st')
    (hcounted : st.Counted counts (v :: others)) (hnew : new ∈ values) :
    st'.at? v keys = some new := by
  obtain ⟨hchain, hclaimed, hdiffers⟩ := h
  rw [at?_append, hchain.at?_setBody_above hclaimed hcounted (List.prefix_refl _), hchain.at?_eq,
    Option.bind_some, at?, body_setBody_self hclaimed.index_lt, hdiffers.present new hnew]
  rfl

end Store

end PathCopy
