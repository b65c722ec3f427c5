import PathCopy.Proofs.Runs

/-!
Writes under different counts of handles. A write looks at the counts only to claim the nodes on its
way, one after the other. So two counts under which the same nodes of the way can be claimed, and
the others are refused for the same reason, make no difference to the write.
-/

namespace PathCopy

namespace Store

/-- The nodes on the way along the steps, as far as it leads, are claimed alike under both
counts. -/
def SameClaims (st : Store) (counts counts' : Array Nat) (v : Value) (steps : List Step) : Prop :=
  ∀ way r, way <+: steps → st.follow counts v way = .ok (.node r) →
    st.claim counts r = st.claim counts' r

variable {st : Store} {counts counts' : Array Nat} {v w new : Value} {r : Ref} {key : String}
  {step : Step} {steps : List Step}

/-! ### One node -/

theorem child_congr (h : ∀ r, v = .node r → st.claim counts r = st.claim counts' r) :
    st.child counts v step = st.child counts' v step := by
  cases v with
  | scalar a => rfl
  | node r => simp only [child, h r rfl]

theorem setKey_congr (h : ∀ r, v = .node r → st.claim counts r = st.claim counts' r) :
    st.setKey counts v key new = st.setKey counts' v key new := by
  cases v with
  | scalar a => rfl
  | node r => simp only [setKey, h r rfl]

theorem mapSet_congr (h : ∀ r, v = .node r → st.claim counts r = st.claim counts' r) :
    st.mapSet counts v key new = st.mapSet counts' v key new := by
  cases v with
  | scalar a => rfl
  | node r => simp only [mapSet, h r rfl]

theorem mapDelete_congr (h : ∀ r, v = .node r → st.claim counts r = st.claim counts' r) :
    st.mapDelete counts v key = st.mapDelete counts' v key := by
  cases v with
  | scalar a => rfl
  | node r => simp only [mapDelete, h r rfl]

/-! ### The way to a node -/

namespace SameClaims

theorem here (h : st.SameClaims counts counts' v steps) {r : Ref} (hv : v = .node r) :
    st.claim counts r = st.claim counts' r :=
  h [] r List.nil_prefix (hv ▸ rfl)

theorem child (h : st.SameClaims counts counts' v (step :: steps))
    (hchild : st.child counts v step = .ok w) : st.SameClaims counts counts' w steps := by
  intro way r hway hfollow
  refine h (step :: way) r (List.cons_prefix_cons.mpr ⟨rfl, hway⟩) ?_
  rw [Store.follow, hchild]
  exact hfollow

theorem follow (h : st.SameClaims counts counts' v steps) :
    st.follow counts v steps = st.follow counts' v steps := by
  induction steps generalizing v with
  | nil => rfl
  | cons step steps ih =>
      rw [Store.follow, Store.follow, ← child_congr fun r hr => h.here hr]
      cases hchild : st.child counts v step with
      | error e => rfl
      | ok w => exact ih (h.child hchild)

theorem last (h : st.SameClaims counts counts' v steps)
    (hfollow : st.follow counts v steps = .ok w) {r : Ref} (hw : w = .node r) :
    st.claim counts r = st.claim counts' r :=
  h steps r List.prefix_rfl (hw ▸ hfollow)

end SameClaims

end Store

namespace Run

variable {names : NameTable} {us ws : List Value} {p : Place} {v : Value} {k method : String}
  {arity : ℕ} {span : Span} {m : Machine} {counts counts' : Array Nat} {steps : List Step}

theorem reach_bound {root : Name} {b : Binding} (hb : m.scopes.find? root = some b) :
    reach names counts root steps span m =
      ofWrite span (m.store.follow counts b.value steps) m := by
  rw [reach, bind_apply, lookup_bound hb]
  rfl

theorem reach_unbound {root : Name} (hb : m.scopes.find? root = none) :
    reach names counts root steps span m =
      .error ⟨.undefinedVariable (names.lookup root), span⟩ m := by
  simp [reach, lookup, bind_apply, hb]

section

variable (h : ∀ b, m.scopes.find? p.root = some b →
  m.store.SameClaims counts counts' b.value steps)

include h

/-- The way to the container of a write, under both counts, and claims that agree at its end. -/
theorem reach_congr (names : NameTable) (span : Span) : reach names counts p.root steps span m =
    reach names counts' p.root steps span m ∧ ∀ w m', reach names counts p.root steps span m =
      .ok w m' → m' = m ∧ ∀ r, w = .node r → m.store.claim counts r = m.store.claim counts' r := by
  cases hb : m.scopes.find? p.root with
  | none =>
      rw [reach_unbound hb, reach_unbound hb]
      exact ⟨rfl, by simp⟩
  | some b =>
      rw [reach_bound hb, reach_bound hb, (h b hb).follow]
      refine ⟨rfl, fun w m' hreach => ⟨(still_ofWrite _).ok hreach, fun r hr => ?_⟩⟩
      exact (h b hb).last ((h b hb).follow.trans (ofWrite_ok hreach)) hr

theorem reachMap_congr (names : NameTable) (method : String) (arity : ℕ) (span : Span)
    (hsteps : steps = p.steps) : reachMap names counts p method arity span m =
    reachMap names counts' p method arity span m ∧
    ∀ w m', reachMap names counts p method arity span m = .ok w m' → m' = m ∧
      ∀ r, w = .node r → m.store.claim counts r = m.store.claim counts' r := by
  subst hsteps
  obtain ⟨heq, hlast⟩ := reach_congr h names span
  constructor
  · rw [reachMap, bind_apply, heq, reachMap, bind_apply]
  · intro w m' hmap
    have hm := (still_reachMap _ _ _ _ _ _).ok hmap
    obtain ⟨u, m₁, hreach, hmap⟩ := bind_ok hmap
    obtain ⟨m₂, m₃, -, hmap⟩ := bind_ok hmap
    have hw : w = u := by
      dsimp only at hmap
      split at hmap
      · cases hmap
        rfl
      · split at hmap
        · simp at hmap
        · simp at hmap
    exact ⟨hm, hw ▸ (hlast u m₁ hreach).2⟩

end

theorem bind_congr_claim {α : Type} {x y : Run Value} {f g : Value → Run α} (hxy : x m = y m)
    (hlast : ∀ w m', x m = .ok w m' → m' = m ∧
      ∀ r, w = .node r → m.store.claim counts r = m.store.claim counts' r)
    (hfg : ∀ w, (∀ r, w = .node r → m.store.claim counts r = m.store.claim counts' r) →
      f w m = g w m) : (x >>= f) m = (y >>= g) m := by
  rw [bind_apply, bind_apply, ← hxy]
  cases hx : x m with
  | error e m₁ => rfl
  | ok w m₁ =>
      obtain ⟨rfl, hclaim⟩ := hlast w m₁ hx
      exact hfg w hclaim

/-- Handles that change no claim on the way of a write change nothing. -/
theorem writePlace_congr (h : ∀ steps k b, p.steps = steps ++ [.key k] →
      m.scopes.find? p.root = some b →
      m.store.SameClaims (m.store.handles (m.scopes.values ++ v :: us))
        (m.store.handles (m.scopes.values ++ v :: ws)) b.value steps) :
    writePlace names us p v span m = writePlace names ws p v span m := by
  cases hlast : p.steps.getLast? with
  | none => rw [writePlace, hlast, writePlace, hlast]
  | some step =>
      rw [writePlace, hlast, writePlace, hlast]
      cases step with
      | entry k => rfl
      | key k =>
          obtain ⟨steps, hsteps⟩ := List.getLast?_eq_some_iff.mp hlast
          rw [hsteps, List.dropLast_concat]
          obtain ⟨heq, hend⟩ := reach_congr (fun b => h steps k b hsteps) names span
          refine bind_congr_claim heq hend fun w hclaim => ?_
          rw [bind_apply, bind_apply, get_apply]
          dsimp only
          rw [Store.setKey_congr hclaim]

theorem mapSet_congr (h : ∀ b, m.scopes.find? p.root = some b →
      m.store.SameClaims (m.store.handles (m.scopes.values ++ v :: us))
        (m.store.handles (m.scopes.values ++ v :: ws)) b.value p.steps) :
    mapSet names us p k v span m = mapSet names ws p k v span m := by
  obtain ⟨heq, hlast⟩ := reachMap_congr h names "set" 2 span rfl
  refine bind_congr_claim heq hlast fun w hclaim => ?_
  rw [bind_apply, bind_apply, get_apply]
  dsimp only
  rw [Store.mapSet_congr hclaim]

theorem mapDelete_congr (h : ∀ b, m.scopes.find? p.root = some b →
      m.store.SameClaims (m.store.handles (m.scopes.values ++ us))
        (m.store.handles (m.scopes.values ++ ws)) b.value p.steps) :
    mapDelete names us p k span m = mapDelete names ws p k span m := by
  obtain ⟨heq, hlast⟩ := reachMap_congr h names "delete" 1 span rfl
  refine bind_congr_claim heq hlast fun w hclaim => ?_
  rw [bind_apply, bind_apply, get_apply]
  dsimp only
  rw [Store.mapDelete_congr hclaim]

end Run

end PathCopy
