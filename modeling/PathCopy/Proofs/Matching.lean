import PathCopy.Proofs.Mirror

/-!
Writes to mirrored stores. If a write goes through in the mirroring store, then the same write goes
through in the mirrored one. The nodes along the way are claimed one by one: the image of a claimed
node has one handle, so the node has one handle too and is the only one with this image.
-/

namespace PathCopy

namespace Store

/-- Mirrored stores together with their counts of handles, opened at a value: what stands beside it
here has its image there. -/
structure Matched (φ : Ref → Ref) (st st' : Store) (counts counts' : Array Nat) (v : Value)
    (others others' : List Value) : Prop where
  mirror : Mirror φ st st' (v :: others)
  counted : st.Counted counts (v :: others)
  counted' : st'.Counted counts' (v.rename φ :: others')
  others : ∀ u ∈ others, u.rename φ ∈ others'

/-- Nothing beside or below the node leads to a node with the same image. -/
def Sole (φ : Ref → Ref) (st : Store) (r : Ref) (others : List Value) : Prop :=
  ∀ u ∈ st.children r ++ others, ∀ s, st.Reaches u (.node s) → φ s ≠ φ r

variable {φ : Ref → Ref} {st st' st₁' : Store} {counts counts' : Array Nat}
  {others others' : List Value} {u v w w' new : Value} {r s t : Ref} {key : String} {step : Step}
  {steps : List Step}

theorem Sole.alone (h : Sole φ st r others) : ∀ u ∈ st.children r ++ others,
    ¬ st.Reaches u (.node r) := fun u hu hreach => h u hu r hreach rfl

theorem Sole.unique (h : Sole φ st r others) (hs : st.Reachable (.node r :: others) s)
    (himage : φ s = φ r) : s = r := by
  obtain ⟨u, hu, hus⟩ := hs
  rcases List.mem_cons.mp hu with rfl | hu
  · rcases reaches_node_iff.mp hus with heq | ⟨c, hc, hcs⟩
    · exact Value.node.inj heq
    · exact absurd himage (h c (List.mem_append_left _ hc) s hcs)
  · exact absurd himage (h u (List.mem_append_right _ hu) s hus)

namespace Matched

theorem claim (h : Matched φ st st' counts counts' (.node r) others others')
    (hclaimed : st'.Claimed counts' (φ r)) : st.Claimed counts r ∧ Sole φ st r others := by
  have hr := h.mirror.index (reachable_of_mem List.mem_cons_self)
  have halone := h.counted'.alone hr.2 hclaimed.sole
  have hsole : Sole φ st r others := by
    intro u hu s hus himage
    have hwithin : st.Within (.node r :: others) u := by
      rcases List.mem_append.mp hu with hu | hu
      · exact (within_of_mem List.mem_cons_self).reaches (reaches_of_mem_children hu)
      · exact within_of_mem (List.mem_cons_of_mem _ hu)
    refine halone (u.rename φ) ?_ (himage ▸ h.mirror.reaches hwithin hus)
    rw [h.mirror.children_eq (reachable_of_mem List.mem_cons_self)]
    rcases List.mem_append.mp hu with hu | hu
    · exact List.mem_append_left _ (List.mem_map_of_mem hu)
    · exact List.mem_append_right _ (h.others u hu)
  refine ⟨⟨?_, h.counted.le_one hr.1 hsole.alone⟩, hsole⟩
  by_contra hfrozen
  have hfrozen' := h.mirror.frozen (reachable_of_mem List.mem_cons_self)
    (Bool.eq_true_of_not_eq_false hfrozen)
  rw [hclaimed.unfrozen] at hfrozen'
  simp at hfrozen'

theorem descend (h : Matched φ st st' counts counts' (.node r) others others')
    (hclaimed : st'.Claimed counts' (φ r)) (hchild : (st.body r).child? key = some v) :
    ∃ siblings siblings', Matched φ st st' counts counts' v (siblings ++ others)
        (siblings' ++ others') ∧
      ∀ s, st.Reachable (.node r :: others) s → s = r ∨
        st.Reachable (v :: (siblings ++ others)) s := by
  obtain ⟨hmine, hsole⟩ := h.claim hclaimed
  have hr : st.Reachable (.node r :: others) r := reachable_of_mem List.mem_cons_self
  obtain ⟨siblings, hperm, hcounted, -, -⟩ := h.counted.descend hmine hchild
  have hperm' : (st'.children (φ r)).Perm (v.rename φ :: siblings.map (Value.rename φ)) := by
    rw [h.mirror.children_eq hr]
    exact hperm.map _
  have hwithin : ∀ u ∈ v :: (siblings ++ others), st.Within (.node r :: others) u := by
    intro u hu
    rw [← List.cons_append, List.mem_append] at hu
    rcases hu with hu | hu
    · exact (within_of_mem List.mem_cons_self).reaches
        (reaches_of_mem_children (hperm.symm.subset hu))
    · exact within_of_mem (List.mem_cons_of_mem _ hu)
  refine ⟨siblings, siblings.map (Value.rename φ), ⟨h.mirror.mono hwithin, hcounted, ?_, ?_⟩, ?_⟩
  · have hlt := (h.mirror.index hr).2
    exact (h.counted'.open hlt (h.counted'.alone hlt hclaimed.sole)).perm
      (hperm'.append_right others')
  · intro u hu
    rcases List.mem_append.mp hu with hu | hu
    · exact List.mem_append_left _ (List.mem_map_of_mem hu)
    · exact List.mem_append_right _ (h.others u hu)
  · rintro s ⟨u, hu, hus⟩
    rcases List.mem_cons.mp hu with rfl | hu
    · rcases reaches_node_iff.mp hus with heq | ⟨c, hc, hcs⟩
      · exact .inl (Value.node.inj heq)
      · refine .inr ⟨c, ?_, hcs⟩
        rw [← List.cons_append]
        exact List.mem_append_left _ (hperm.subset hc)
    · refine .inr ⟨u, ?_, hus⟩
      exact List.mem_cons_of_mem _ (List.mem_append_right _ hu)

theorem child (h : Matched φ st st' counts counts' v others others')
    (hrun : st'.child counts' (v.rename φ) step = .ok w') :
    ∃ r w, v = .node r ∧ st'.Claimed counts' (φ r) ∧ (st.body r).child? step.text = some w ∧
      w' = w.rename φ ∧ st.child counts v step = .ok w := by
  obtain ⟨r', hr', hclaimed, hchild'⟩ := child_ok hrun
  cases v with
  | scalar a => simp at hr'
  | node r =>
      cases hr'
      have hbody := h.mirror.body (reachable_of_mem (r := r) List.mem_cons_self)
      rw [hbody, Body.child?_rename] at hchild'
      obtain ⟨w, hchild, rfl⟩ := Option.map_eq_some_iff.mp hchild'
      refine ⟨r, w, rfl, hclaimed, hchild, rfl, ?_⟩
      have hclaim := claim_of_claimed (h.claim hclaimed).1
      cases step with
      | key k =>
          cases hcontents : st.body r with
          | date ms => simp [Store.child, hbody, hcontents, Body.rename] at hrun
          | map entries => simp [Store.child, hbody, hcontents, Body.rename] at hrun
          | record cls fields =>
              have hget : fields.get? k = some w := by rwa [hcontents] at hchild
              simp only [Store.child, hcontents, hclaim, hget]
              rfl
          | list items =>
              obtain ⟨i, hi, hitem⟩ := Option.bind_eq_some_iff.mp
                (show (Number.readIndex? k).bind (items[·]?) = some w by rwa [hcontents] at hchild)
              simp only [Store.child, hcontents, indexOf, hi, hclaim]
              simp only [bind, Except.bind, hitem]
      | entry k =>
          cases hcontents : st.body r with
          | date ms => simp [Store.child, hbody, hcontents, Body.rename] at hrun
          | list items => simp [Store.child, hbody, hcontents, Body.rename] at hrun
          | record cls fields => simp [Store.child, hbody, hcontents, Body.rename] at hrun
          | map entries =>
              have hget : entries.get? k = some w := by rwa [hcontents] at hchild
              simp only [Store.child, hcontents, hclaim, hget]
              rfl

/-- The way of a write. If it ends at a node whose image is claimed, then the node can be claimed,
and no other node that the roots reach has its image. -/
theorem follow (h : Matched φ st st' counts counts' v others others')
    (hrun : st'.follow counts' (v.rename φ) steps = .ok w') :
    ∃ w, st.follow counts v steps = .ok w ∧ w' = w.rename φ ∧ st.Reaches v w ∧
      ∀ t, w = .node t → st'.Claimed counts' (φ t) → st.Claimed counts t ∧ Sole φ st t others ∧
        ∀ s, st.Reachable (v :: others) s → φ s = φ t → s = t := by
  induction steps generalizing v others others' with
  | nil =>
      cases hrun
      refine ⟨v, rfl, rfl, reaches_refl st v, ?_⟩
      rintro t rfl hclaimed
      obtain ⟨hmine, hsole⟩ := h.claim hclaimed
      exact ⟨hmine, hsole, fun s => hsole.unique⟩
  | cons step steps ih =>
      obtain ⟨u', hu', hrest⟩ := except_bind_ok hrun
      obtain ⟨r, u, rfl, hclaimed, hchild, rfl, hstep⟩ := h.child hu'
      obtain ⟨siblings, siblings', hmatched, hcases⟩ := h.descend hclaimed hchild
      obtain ⟨w, hfollow, rfl, hreach, hend⟩ := ih hmatched hrest
      have hmem := Body.mem_children_of_child? hchild
      refine ⟨w, ?_, rfl, (reaches_of_mem_children hmem).trans hreach, fun t ht hclaimed' => ?_⟩
      · rw [Store.follow, hstep]
        exact hfollow
      · obtain ⟨hmine, hsole, hunique⟩ := hend t ht hclaimed'
        refine ⟨hmine, fun x hx => hsole x ?_, fun s hs himage => ?_⟩
        · rcases List.mem_append.mp hx with hx | hx
          · exact List.mem_append_left _ hx
          · exact List.mem_append_right _ (List.mem_append_right _ hx)
        · rcases hcases s hs with rfl | hs
          · -- The end of the way is below this node, so it has another image.
            subst ht
            refine absurd himage.symm ((h.claim hclaimed).2 u ?_ t hreach)
            exact List.mem_append_left _ hmem
          · exact hunique s hs himage

end Matched

/-! ### The written node -/

section Written

variable {removed : Bool} (hbody : st'.body (φ t) = (st.body t).rename φ)
  (hclaim : st'.Claimed counts' (φ t) → st.Claimed counts t)

include hbody hclaim

theorem setKey_rename
    (h : st'.setKey counts' (.node (φ t)) key (new.rename φ) = .ok st₁') :
    ∃ body, st.setKey counts (.node t) key new = .ok (st.setBody t body) ∧
      st₁' = st'.setBody (φ t) (body.rename φ) ∧ st'.Claimed counts' (φ t) ∧
      ∀ c ∈ body.children, c ∈ st.children t ∨ c = new := by
  cases hcontents : st.body t with
  | date ms => simp [setKey, hbody, hcontents, Body.rename] at h
  | map entries => simp [setKey, hbody, hcontents, Body.rename] at h
  | record cls fields =>
      simp only [setKey, hbody, hcontents, Body.rename] at h
      obtain ⟨_, hclaimed, h⟩ := except_bind_ok h
      cases h
      have hmine := claimed_of_claim hclaimed
      refine ⟨.record cls (fields.insert key new), ?_, ?_, hmine, fun c hc => ?_⟩
      · simp only [setKey, hcontents, claim_of_claimed (hclaim hmine)]
        rfl
      · rw [Body.rename, Table.insert_map]
      · rw [children, hcontents]
        exact (Table.mem_values_insert hc).symm
  | list items =>
      simp only [setKey, hbody, hcontents, Body.rename] at h
      obtain ⟨i, hi, h⟩ := except_bind_ok h
      obtain ⟨_, hclaimed, h⟩ := except_bind_ok h
      have hmine := claimed_of_claim hclaimed
      have hset : st.setKey counts (.node t) key new =
          if i < items.length then .ok (st.setBody t (.list (items.set i new)))
          else if i = items.length then .ok (st.setBody t (.list (items ++ [new])))
          else .error (.indexOutOfRange i items.length) := by
        simp only [setKey, hcontents, hi, claim_of_claimed (hclaim hmine)]
        rfl
      -- The key is the index of an item, or the one behind the last, which appends.
      rw [List.length_map] at h
      split at h
      · next hlt =>
        cases h
        refine ⟨.list (items.set i new), hset.trans (if_pos hlt), ?_, hmine, fun c hc => ?_⟩
        · rw [Body.rename, List.map_set]
        · rw [children, hcontents]
          exact List.mem_or_eq_of_mem_set hc
      · next hge =>
        split at h
        · next heq =>
          cases h
          refine ⟨.list (items ++ [new]), hset.trans ((if_neg hge).trans (if_pos heq)), ?_, hmine,
            fun c hc => ?_⟩
          · rw [Body.rename, List.map_append, List.map_singleton]
          · rw [children, hcontents]
            exact (List.mem_append.mp hc).imp id List.mem_singleton.mp
        · simp at h

theorem mapSet_rename
    (h : st'.mapSet counts' (.node (φ t)) key (new.rename φ) = .ok st₁') :
    ∃ body, st.mapSet counts (.node t) key new = .ok (st.setBody t body) ∧
      st₁' = st'.setBody (φ t) (body.rename φ) ∧ st'.Claimed counts' (φ t) ∧
      ∀ c ∈ body.children, c ∈ st.children t ∨ c = new := by
  cases hcontents : st.body t with
  | date ms => simp [mapSet, hbody, hcontents, Body.rename] at h
  | list items => simp [mapSet, hbody, hcontents, Body.rename] at h
  | record cls fields => simp [mapSet, hbody, hcontents, Body.rename] at h
  | map entries =>
      simp only [mapSet, hbody, hcontents, Body.rename] at h
      obtain ⟨_, hclaimed, h⟩ := except_bind_ok h
      cases h
      have hmine := claimed_of_claim hclaimed
      refine ⟨.map (entries.insert key new), ?_, ?_, hmine, fun c hc => ?_⟩
      · simp only [mapSet, hcontents, claim_of_claimed (hclaim hmine)]
        rfl
      · rw [Body.rename, Table.insert_map]
      · rw [children, hcontents]
        exact (Table.mem_values_insert hc).symm

theorem mapDelete_rename
    (h : st'.mapDelete counts' (.node (φ t)) key = .ok (removed, st₁')) :
    ∃ body, st.mapDelete counts (.node t) key = .ok (removed, st.setBody t body) ∧
      st₁' = st'.setBody (φ t) (body.rename φ) ∧ st'.Claimed counts' (φ t) ∧
      ∀ c ∈ body.children, c ∈ st.children t := by
  cases hcontents : st.body t with
  | date ms => simp [mapDelete, hbody, hcontents, Body.rename] at h
  | list items => simp [mapDelete, hbody, hcontents, Body.rename] at h
  | record cls fields => simp [mapDelete, hbody, hcontents, Body.rename] at h
  | map entries =>
      simp only [mapDelete, hbody, hcontents, Body.rename] at h
      obtain ⟨_, hclaimed, h⟩ := except_bind_ok h
      cases h
      have hmine := claimed_of_claim hclaimed
      refine ⟨.map (entries.erase key), ?_, ?_, hmine, fun c hc => ?_⟩
      · simp only [mapDelete, hcontents, claim_of_claimed (hclaim hmine), Table.contains_map]
        rfl
      · rw [Body.rename, Table.erase_map]
      · rw [children, hcontents]
        exact Table.mem_values_erase hc

end Written

end Store

end PathCopy
