import PathCopy.Proofs.Coupling
import PathCopy.Proofs.Twins

/-!
Writes to twins. A write may change a node that is not frozen and has one handle. The caller has a
handle to every old node, so both sides refuse to write an old one, whether for its flag or for its
handles; and a new node is never frozen and has the same handles on both sides. Hence a write goes
through on both sides or on neither.
-/

namespace PathCopy

open Store Run

/-! ### Failures of one sort -/

/-- The fault, where a refusal to write a shared node counts as that to write a frozen one. -/
def EvalFault.merged : EvalFault → EvalFault
  | sharedWrite => frozenWrite
  | fault => fault

/-- The same failure at the same place, whether a refused write met a frozen or a shared node. -/
def EvalError.Same (e e' : EvalError) : Prop :=
  e.span = e'.span ∧ e.fault.merged = e'.fault.merged

/-- The left run fails whenever the right one does, and in the same way. -/
def Run.Verdict.strict : Verdict where
  admits o e := ∃ e', o = some e' ∧ e'.Same e
  same e := ⟨e, rfl, rfl, rfl⟩
  later h := by
    obtain ⟨e', he', -⟩ := h
    cases he'

namespace Store

variable {st : Store} {counts : Array Nat} {us : List Value} {w : Value} {r : Ref} {key : String}

theorem claim_cases (st : Store) (counts : Array Nat) (r : Ref) :
    st.Claimed counts r ∧ st.claim counts r = .ok () ∨
      st.claim counts r = .error .frozen ∨ st.claim counts r = .error .shared := by
  cases hclaim : st.claim counts r with
  | ok u => exact .inl ⟨claimed_of_claim hclaim, rfl⟩
  | error e =>
      unfold claim at hclaim
      split at hclaim
      · cases hclaim
        exact .inr (.inl rfl)
      · split at hclaim
        · cases hclaim
          exact .inr (.inr rfl)
        · cases hclaim

/-- The counts are right for a value and what stands beside it, which includes the values `us`. -/
def Focused (st : Store) (counts : Array Nat) (us : List Value) (v : Value) : Prop :=
  ∃ others, us ⊆ others ∧ st.Counted counts (v :: others)

theorem Focused.alone (h : st.Focused counts us (.node r)) (hclaimed : st.Claimed counts r) :
    ∀ u ∈ st.children r ++ us, ¬ st.Reaches u (.node r) := by
  obtain ⟨others, hus, hcounted⟩ := h
  intro u hu
  refine hcounted.alone hclaimed.index_lt hclaimed.sole u (List.mem_append.mpr ?_)
  exact (List.mem_append.mp hu).imp id fun hu => hus hu

theorem Focused.child (h : st.Focused counts us (.node r)) (hclaimed : st.Claimed counts r)
    (hchild : (st.body r).child? key = some w) : st.Focused counts us w := by
  obtain ⟨others, hus, hcounted⟩ := h
  obtain ⟨siblings, -, hrest, -, -⟩ := hcounted.descend hclaimed hchild
  exact ⟨siblings ++ others, List.subset_append_of_subset_right siblings hus, hrest⟩

end Store

/-- Two writes under way, at values that are twins. The counts are right on both sides, for the
values `us` and `us'` too, and those include what the callers hold. -/
structure Aimed (o o' : Origin) (n : ℕ) (st st' : Store) (counts counts' : Array Nat)
    (us us' : List Value) (v v' : Value) : Prop where
  parallel : Parallel o o' n st st'
  counts_eq : ∀ i < n, counts'.getD (o'.fresh i).index 0 = counts.getD (o.fresh i).index 0
  kept : o.kept ⊆ us
  kept' : o'.kept ⊆ us'
  twin : Twin o o' n v v'
  left : st.Focused counts us v
  right : st'.Focused counts' us' v'

namespace Aimed

variable {o o' : Origin} {n : ℕ} {st st' : Store} {counts counts' : Array Nat}
  {us us' : List Value} {v v' new new' : Value} {r s : Ref}

/-- A write passes through the left node only if the node is new. -/
theorem not_old (h : Aimed o o' n st st' counts counts' us us' (.node r) v')
    (hclaimed : st.Claimed counts r) : ¬ o.Old (.node r) := fun hold =>
  h.parallel.left.not_claimed hold fun u hu =>
    h.left.alone hclaimed u (List.mem_append_right _ (h.kept hu))

theorem not_old' (h : Aimed o o' n st st' counts counts' us us' v (.node s))
    (hclaimed : st'.Claimed counts' s) : ¬ o'.Old (.node s) := fun hold =>
  h.parallel.right.not_claimed hold fun u hu =>
    h.right.alone hclaimed u (List.mem_append_right _ (h.kept' hu))

/-- Both nodes can be written, or neither of them. -/
theorem claim (h : Aimed o o' n st st' counts counts' us us' (.node r) (.node s)) :
    Attempts .strict (st.claim counts r) (st'.claim counts' s)
      fun _ _ => st.Claimed counts r ∧ st'.Claimed counts' s := by
  have htwin := h.twin
  generalize hv : Value.node r = v, hv' : Value.node s = v' at htwin
  cases htwin with
  | old hr hs _ =>
      subst hv hv'
      have hleft := (st.claim_cases counts r).resolve_left fun hok => h.not_old hok.1 hr
      have hright := (st'.claim_cases counts' s).resolve_left fun hok => h.not_old' hok.1 hs
      rcases hleft with hleft | hleft <;> rcases hright with hright | hright <;>
        rw [hleft, hright] <;> exact .error fun span => ⟨_, rfl, rfl, rfl⟩
  | @new i hi =>
      cases hv
      cases hv'
      have heq : st'.claim counts' (o'.fresh i) = st.claim counts (o.fresh i) := by
        rw [Store.claim, Store.claim, h.parallel.left.unfrozen i hi,
          h.parallel.right.unfrozen i hi, h.counts_eq i hi]
      rw [heq]
      cases hclaim : st.claim counts (o.fresh i) with
      | ok u => exact ⟨(), rfl, claimed_of_claim hclaim, claimed_of_claim (heq.trans hclaim)⟩
      | error e => exact .error_same e

theorem pass (h : Aimed o o' n st st' counts counts' us us' (.node r) (.node s)) (key : String)
    (e : WriteError) {found found' : Option Value} (hfound : (st.body r).child? key = found)
    (hfound' : (st'.body s).child? key = found') :
    Attempts .strict
      (do st.claim counts r; match found with | some w => .ok w | none => .error e)
      (do st'.claim counts' s; match found' with | some w => .ok w | none => .error e)
      (Aimed o o' n st st' counts counts' us us') := by
  refine h.claim.bind fun _ _ hclaimed => ?_
  obtain ⟨_, heq, hmatch⟩ := h.parallel.likeness.node h.twin
  cases heq
  have hrel := hmatch.child? key
  rw [hfound, hfound'] at hrel
  cases hrel with
  | none => exact .error_same e
  | some htwin =>
      exact ⟨_, rfl, { h with
        twin := htwin
        left := h.left.child hclaimed.1 hfound
        right := h.right.child hclaimed.2 hfound' }⟩

theorem child (h : Aimed o o' n st st' counts counts' us us' v v') (step : Step) :
    Attempts .strict (st.child counts v step) (st'.child counts' v' step)
      (Aimed o o' n st st' counts counts' us us') := by
  obtain ⟨a, rfl, rfl⟩ | ⟨r, s, rfl, rfl, hmatch⟩ := h.parallel.likeness.cases h.twin
  · exact .error_same _
  have hpass := h.pass
  generalize hb : st.body r = b, hb' : st'.body s = b' at hmatch hpass
  cases hmatch with
  | date ms =>
      simp only [Store.child, hb, hb']
      cases step <;> exact .error_same _
  | list hitems =>
      simp only [Store.child, hb, hb']
      cases step with
      | entry k => exact .error_same _
      | key k =>
          refine .bind_same fun i hi => ?_
          rw [hitems.length_eq]
          refine hpass k _ ?_ ?_ <;> rw [Body.child?, indexOf_ok hi] <;> rfl
  | map hentries =>
      simp only [Store.child, hb, hb']
      cases step with
      | key k => exact .error_same _
      | entry k => exact hpass k _ rfl rfl
  | record cls hfields =>
      simp only [Store.child, hb, hb']
      cases step with
      | entry k => exact .error_same _
      | key k => exact hpass k _ rfl rfl

/-- The ways of two writes end at twins. -/
theorem follow (h : Aimed o o' n st st' counts counts' us us' v v') (steps : List Step) :
    Attempts .strict (st.follow counts v steps) (st'.follow counts' v' steps)
      (Aimed o o' n st st' counts counts' us us') := by
  induction steps generalizing v v' with
  | nil => exact ⟨v, rfl, h⟩
  | cons step steps ih => exact (h.child step).bind fun _ _ hchild => ih hchild

/-! ### The written nodes -/

theorem written (h : Aimed o o' n st st' counts counts' us us' (.node r) (.node s))
    (hclaimed : st.Claimed counts r ∧ st'.Claimed counts' s) ⦃body body' : Body⦄
    (hbody : body.Match (Twin o o' n) body')
    (hsub : ∀ c ∈ body.children, c ∈ st.children r ++ us)
    (hsub' : ∀ c ∈ body'.children, c ∈ st'.children s ++ us') :
    Parallel o o' n (st.setBody r body) (st'.setBody s body') := by
  have htwin := h.twin
  generalize hv : Value.node r = v, hv' : Value.node s = v' at htwin
  cases htwin with
  | old hr _ _ =>
      subst hv
      exact (h.not_old hclaimed.1 hr).elim
  | new hi =>
      cases hv
      cases hv'
      exact h.parallel.setBody hi hbody (fun c hc => h.left.alone hclaimed.1 c (hsub c hc))
        fun c hc => h.right.alone hclaimed.2 c (hsub' c hc)

/-- The contents that a new value is put into are made of it and of what was there. -/
theorem put (h : Aimed o o' n st st' counts counts' us us' (.node r) (.node s)) (hnew : new ∈ us)
    (hnew' : new' ∈ us') ⦃body body' : Body⦄ (hbody : body.Match (Twin o o' n) body')
    (hsub : ∀ c ∈ body.children, c = new ∨ c ∈ (st.body r).children)
    (hsub' : ∀ c ∈ body'.children, c = new' ∨ c ∈ (st'.body s).children) :
    Attempts .strict (do st.claim counts r; .ok (st.setBody r body))
      (do st'.claim counts' s; .ok (st'.setBody s body')) (Parallel o o' n) := by
  refine h.claim.bind fun _ _ hclaimed => ⟨_, rfl, h.written hclaimed hbody ?_ ?_⟩
  · intro c hc
    rcases hsub c hc with rfl | hc
    · exact List.mem_append_right _ hnew
    · exact List.mem_append_left _ hc
  · intro c hc
    rcases hsub' c hc with rfl | hc
    · exact List.mem_append_right _ hnew'
    · exact List.mem_append_left _ hc

theorem setKey (h : Aimed o o' n st st' counts counts' us us' v v') (hnew : new ∈ us)
    (hnew' : new' ∈ us') (htwin : Twin o o' n new new') (key : String) :
    Attempts .strict (st.setKey counts v key new) (st'.setKey counts' v' key new')
      (Parallel o o' n) := by
  obtain ⟨a, rfl, rfl⟩ | ⟨r, s, rfl, rfl, hmatch⟩ := h.parallel.likeness.cases h.twin
  · exact .error_same _
  have hput := h.put hnew hnew'
  generalize hb : st.body r = b, hb' : st'.body s = b' at hmatch hput
  cases hmatch with
  | date ms =>
      simp only [Store.setKey, hb, hb']
      exact .error_same _
  | map hentries =>
      simp only [Store.setKey, hb, hb']
      exact .error_same _
  | record cls hfields =>
      simp only [Store.setKey, hb, hb']
      exact hput (.record cls (hfields.insert key htwin)) (fun _ => Table.mem_values_insert)
        fun _ => Table.mem_values_insert
  | list hitems =>
      simp only [Store.setKey, hb, hb']
      refine .bind_same fun i _ => ?_
      rw [hitems.length_eq]
      split
      · exact hput (.list (forall₂_set hitems htwin i))
          (fun _ hc => (List.mem_or_eq_of_mem_set hc).symm)
          fun _ hc => (List.mem_or_eq_of_mem_set hc).symm
      · split
        · refine hput (.list (List.rel_append hitems (.cons htwin .nil)))
            (fun _ hc => ?_) fun _ hc => ?_
          · exact (List.mem_append.mp hc).symm.imp List.mem_singleton.mp id
          · exact (List.mem_append.mp hc).symm.imp List.mem_singleton.mp id
        · exact h.claim.bind fun _ _ _ => .error_same _

theorem mapSet (h : Aimed o o' n st st' counts counts' us us' v v') (hnew : new ∈ us)
    (hnew' : new' ∈ us') (htwin : Twin o o' n new new') (key : String) :
    Attempts .strict (st.mapSet counts v key new) (st'.mapSet counts' v' key new')
      (Parallel o o' n) := by
  obtain ⟨a, rfl, rfl⟩ | ⟨r, s, rfl, rfl, hmatch⟩ := h.parallel.likeness.cases h.twin
  · exact .error_same _
  have hput := h.put hnew hnew'
  generalize hb : st.body r = b, hb' : st'.body s = b' at hmatch hput
  cases hmatch with
  | map hentries =>
      simp only [Store.mapSet, hb, hb']
      exact hput (.map (hentries.insert key htwin)) (fun _ => Table.mem_values_insert)
        fun _ => Table.mem_values_insert
  | _ =>
      simp only [Store.mapSet, hb, hb']
      exact .error_same _

theorem mapDelete (h : Aimed o o' n st st' counts counts' us us' v v') (key : String) :
    Attempts .strict (st.mapDelete counts v key) (st'.mapDelete counts' v' key)
      fun x y => x.1 = y.1 ∧ Parallel o o' n x.2 y.2 := by
  obtain ⟨a, rfl, rfl⟩ | ⟨r, s, rfl, rfl, hmatch⟩ := h.parallel.likeness.cases h.twin
  · exact .error_same _
  have hwritten := h.written
  rw [Store.children, Store.children] at hwritten
  generalize hb : st.body r = b, hb' : st'.body s = b' at hmatch hwritten
  cases hmatch with
  | map hentries =>
      simp only [Store.mapDelete, hb, hb']
      refine h.claim.bind fun _ _ hclaimed => ⟨_, rfl, (hentries.contains key).symm, ?_⟩
      exact hwritten hclaimed (.map (hentries.erase key))
        (fun _ hc => List.mem_append_left _ (Table.mem_values_erase hc))
        fun _ hc => List.mem_append_left _ (Table.mem_values_erase hc)
  | _ =>
      simp only [Store.mapDelete, hb, hb']
      exact .error_same _

end Aimed

end PathCopy
