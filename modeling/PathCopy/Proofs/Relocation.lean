import PathCopy.Proofs.Simulation

/-!
Relocated machines. Two machines that mirror each other in both directions hold the same nodes, at
other places of their stores and among other nodes that nobody reaches. None of this makes a
difference to a run: it ends in the same way on both machines, and what it comes to is relocated
again.
-/

namespace PathCopy

open Store

/-- The machines mirror each other, either one the other. The values at hand are paired. -/
def Relocated (ps : List (Value × Value)) (b a : Machine) : Prop :=
  Corresponds ps b a ∧ Corresponds (ps.map Prod.swap) a b

/-! ### Contents that match in two ways -/

theorem Table.Match.and {α β : Type} {R S : α → β → Prop} {t : Table α} {u : Table β}
    (h : t.Match R u) (h' : t.Match S u) : t.Match (fun a b => R a b ∧ S a b) u :=
  List.Forall₂.mp (fun _ _ hab hab' => ⟨hab.1, hab.2, hab'.2⟩) h h'

theorem Table.map_map {α β γ : Type} (f : α → β) (g : β → γ) (t : Table α) :
    (t.map f).map g = t.map (g ∘ f) :=
  Table.eq_of_entries (by simp)

theorem Body.Match.and {R S : Value → Value → Prop} {b b' : Body} (h : b.Match R b')
    (h' : b.Match S b') : b.Match (fun v w => R v w ∧ S v w) b' := by
  cases h with
  | date ms => exact .date ms
  | list hitems =>
      cases h' with
      | list hitems' => exact .list (List.Forall₂.mp (fun _ _ => And.intro) hitems hitems')
  | map hentries =>
      cases h' with
      | map hentries' => exact .map (hentries.and hentries')
  | record cls hfields =>
      cases h' with
      | record cls hfields' => exact .record cls (hfields.and hfields')

namespace Store

variable {φ : Ref → Ref} {st st' : Store} {counts counts' : Array Nat} {v w new new' : Value}
  {r s : Ref} {key : String} {step : Step} {steps : List Step} {e : WriteError}

/-! ### Refusals -/

theorem claim_congr (hfrozen : (st.node r).frozen = (st'.node s).frozen)
    (h : st.Claimed counts r ↔ st'.Claimed counts' s) :
    st.claim counts r = st'.claim counts' s := by
  by_cases hclaimed : st.Claimed counts r
  · rw [claim_of_claimed hclaimed, claim_of_claimed (h.mp hclaimed)]
  · have hshared : ∀ {st : Store} {counts : Array Nat} {r : Ref}, ¬ st.Claimed counts r →
        (st.node r).frozen = false → 1 < counts.getD r.index 0 := fun hnot hunfrozen =>
      Nat.lt_of_not_le fun hsole => hnot ⟨hunfrozen, hsole⟩
    rw [claim, claim, ← hfrozen]
    cases hflag : (st.node r).frozen with
    | true => rfl
    | false =>
        rw [if_pos (hshared hclaimed hflag),
          if_pos (hshared (h.not.mp hclaimed) (hfrozen.symm.trans hflag))]

/-- Where only the first step can be refused, it makes no difference what comes after it. -/
theorem refused_of_bind_ok {α β γ : Type} {x : Except WriteError α} {f : α → β} {g : α → γ}
    (h : (x >>= fun a => .ok (f a)) = .error e) : (x >>= fun a => .ok (g a)) = .error e := by
  cases x with
  | error e' =>
      cases h
      rfl
  | ok a => cases h

section

variable (hbody : st'.body (φ r) = (st.body r).rename φ)
  (hclaim : st'.claim counts' (φ r) = st.claim counts r)

include hbody hclaim

theorem child_rename : st'.child counts' (.node (φ r)) step =
    (st.child counts (.node r) step).map (Value.rename φ) := by
  cases hcontents : st.body r with
  | date ms => cases step <;> simp only [child, hbody, hcontents, Body.rename] <;> rfl
  | list items =>
      cases step with
      | entry k =>
          simp only [child, hbody, hcontents, Body.rename]
          rfl
      | key k =>
          simp only [child, hbody, hcontents, Body.rename, hclaim, List.length_map,
            List.getElem?_map]
          cases indexOf k with
          | error e => rfl
          | ok i =>
              cases st.claim counts r with
              | error e => rfl
              | ok u => cases hitem : items[i]? <;> simp [bind, Except.bind, Except.map, hitem]
  | map entries =>
      cases step with
      | key k =>
          simp only [child, hbody, hcontents, Body.rename]
          rfl
      | entry k =>
          simp only [child, hbody, hcontents, Body.rename, hclaim, Table.get?_map]
          cases st.claim counts r with
          | error e => rfl
          | ok u => cases entries.get? k <;> rfl
  | record cls fields =>
      cases step with
      | entry k =>
          simp only [child, hbody, hcontents, Body.rename]
          rfl
      | key k =>
          simp only [child, hbody, hcontents, Body.rename, hclaim, Table.get?_map]
          cases st.claim counts r with
          | error e => rfl
          | ok u => cases fields.get? k <;> rfl

/-- The image of a node refuses what the node refuses, for the same reason. -/
theorem setKey_refused (h : st'.setKey counts' (.node (φ r)) key new' = .error e) :
    st.setKey counts (.node r) key new = .error e := by
  cases hcontents : st.body r with
  | list items =>
      simp only [setKey, hbody, hcontents, Body.rename, hclaim, List.length_map] at h ⊢
      cases hindex : indexOf key with
      | error e' => rwa [hindex] at h
      | ok i =>
          rw [hindex] at h
          cases hcl : st.claim counts r with
          | error e' => rwa [hcl] at h
          | ok u =>
              rw [hcl] at h
              simp only [bind, Except.bind] at h ⊢
              split at h
              · simp at h
              · next hlt =>
                split at h
                · simp at h
                · next heq => rwa [if_neg hlt, if_neg heq]
  | record cls fields =>
      simp only [setKey, hbody, hcontents, Body.rename, hclaim] at h ⊢
      exact refused_of_bind_ok h
  | _ =>
      simp only [setKey, hbody, hcontents, Body.rename] at h ⊢
      exact h

theorem mapSet_refused (h : st'.mapSet counts' (.node (φ r)) key new' = .error e) :
    st.mapSet counts (.node r) key new = .error e := by
  cases hcontents : st.body r with
  | map entries =>
      simp only [mapSet, hbody, hcontents, Body.rename, hclaim] at h ⊢
      exact refused_of_bind_ok h
  | _ =>
      simp only [mapSet, hbody, hcontents, Body.rename] at h ⊢
      exact h

theorem mapDelete_refused (h : st'.mapDelete counts' (.node (φ r)) key = .error e) :
    st.mapDelete counts (.node r) key = .error e := by
  cases hcontents : st.body r with
  | map entries =>
      simp only [mapDelete, hbody, hcontents, Body.rename, hclaim] at h ⊢
      exact refused_of_bind_ok h
  | _ =>
      simp only [mapDelete, hbody, hcontents, Body.rename] at h ⊢
      exact h

end

theorem follow_concat (st : Store) (counts : Array Nat) (v : Value) (steps : List Step)
    (step : Step) : st.follow counts v (steps ++ [step]) =
      st.follow counts v steps >>= fun w => st.child counts w step := by
  rw [follow_append]
  refine congrArg _ (funext fun w => ?_)
  rw [follow]
  cases st.child counts w step <;> rfl

end Store

/-! ### The changes of a run -/

namespace Relocated

variable {ps qs : List (Value × Value)} {a b : Machine} {v w : Value}

theorem symm (h : Relocated ps b a) : Relocated (ps.map Prod.swap) a b := by
  refine ⟨h.2, ?_⟩
  rw [List.map_map, Prod.swap_swap_eq, List.map_id]
  exact h.1

theorem subset (h : Relocated ps b a) (hsub : qs ⊆ ps) : Relocated qs b a :=
  ⟨h.1.subset hsub, h.2.subset (List.map_subset Prod.swap hsub)⟩

theorem likeness (h : Relocated ps b a) :
    b.store.Likeness a.store fun v w => Relocated ((v, w) :: ps) b a where
  refl s := ⟨h.1.likeness.refl s, h.2.likeness.refl s⟩
  scalar hvw := h.1.likeness.scalar hvw.1
  node hvw := by
    obtain ⟨s, rfl, hmatch⟩ := h.1.likeness.node hvw.1
    obtain ⟨r, hr, hmatch'⟩ := h.2.likeness.node hvw.2
    cases hr
    exact ⟨s, rfl, hmatch.and hmatch'.symm⟩

theorem find? (h : Relocated ps b a) (name : Name) :
    Option.Rel (fun c d => d.assignable = c.assignable ∧ Relocated ((c.value, d.value) :: ps) b a)
      (b.scopes.find? name) (a.scopes.find? name) := by
  have hforth := h.1.find? name
  have hback := h.2.find? name
  generalize b.scopes.find? name = found, a.scopes.find? name = found' at hforth hback ⊢
  cases hforth with
  | none => exact .none
  | some hc =>
      cases hback with
      | some hd => exact .some ⟨hc.1, hc.2, hd.2⟩

theorem split (h : Relocated (qs ++ ps) b a) :
    Corresponds (qs.map Prod.swap ++ ps.map Prod.swap) a b :=
  List.map_append ▸ h.2

theorem mem_swap (hmem : (v, w) ∈ ps) : (w, v) ∈ ps.map Prod.swap :=
  List.mem_map_of_mem (f := Prod.swap) hmem

end Relocated

/-- A machine with the same scopes, whose nodes are the same as far as one can reach them. -/
theorem corresponds_of_node_eq {held : List Value} {b a : Machine} (hscopes : a.scopes = b.scopes)
    (hnode : ∀ r, b.store.Reachable (b.scopes.values ++ held) r → r.index < b.store.size ∧
      r.index < a.store.size ∧ a.store.node r = b.store.node r)
    (hfounded : ∀ v ∈ b.scopes.values ++ held, b.store.Founded v) :
    Corresponds (held.map fun v => (v, v)) b a := by
  refine ⟨id, fun hmem => ?_, ?_, ?_⟩
  · obtain ⟨u, -, heq⟩ := List.mem_map.mp hmem
    cases heq
    exact (Value.rename_id _).symm
  · rw [hscopes, Scopes.map_eq_self fun v _ => Value.rename_id v]
  · rw [List.map_map, Function.comp_def, List.map_id']
    constructor
    · intro r hr
      rw [Store.body, id, (hnode r hr).2.2, Body.rename_eq_self fun c _ => Value.rename_id c]
      rfl
    · intro r hr hfrozen
      rwa [id, (hnode r hr).2.2]
    · exact fun {r} hr => ⟨(hnode r hr).1, (hnode r hr).2.1⟩
    · exact fun {v} => hfounded v

namespace Run

variable {α β : Type} {ps : List (Value × Value)} {us ws : List Value} {b a : Machine}
  {v w : Value} {name : Name} {c d : Binding} {step : Step} {e : WriteError}

def Verdict.exact : Verdict where
  admits o e := o = some e
  same _ := rfl
  later h := by cases h

/-- Two attempts that succeed together, and are refused for the same reason. -/
theorem Attempts.both {x : Except WriteError α} {y : Except WriteError β} {R : α → β → Prop}
    {S : β → α → Prop} (hforth : ∀ w, y = .ok w → ∃ v, x = .ok v ∧ R v w)
    (hback : ∀ v, x = .ok v → ∃ w, y = .ok w ∧ S w v)
    (hrefused : ∀ e, y = .error e → x = .error e) :
    Attempts .exact x y fun v w => R v w ∧ S w v := by
  cases y with
  | ok w =>
      obtain ⟨v, rfl, hR⟩ := hforth w rfl
      obtain ⟨w', hw', hS⟩ := hback v rfl
      cases hw'
      exact ⟨v, rfl, hR, hS⟩
  | error e =>
      rw [hrefused e rfl]
      exact fun span => rfl

theorem Attempts.ok {V : Verdict} {x : Except WriteError α} {y : Except WriteError β}
    {R : α → β → Prop} (h : Attempts V x y R) {w : β} (hw : y = .ok w) :
    ∃ v, x = .ok v ∧ R v w := by
  subst hw
  exact h

/-- The ways of two writes end at a pair of values, seen from either side. -/
def Arrives (ps : List (Value × Value)) (us ws : List Value) (b a : Machine) (v w : Value) : Prop :=
  mirroring.End ps us ws b a v w ∧ mirroring.End (ps.map Prod.swap) ws us a b w v

/-- At the ends of their ways the two writes meet a scalar, or a node and its image, which can be
claimed alike. -/
theorem Arrives.cases (h : Arrives ps us ws b a v w) :
    (∃ s, v = .scalar s ∧ w = .scalar s) ∨ ∃ φ r, v = .node r ∧ w = .node (φ r) ∧
      a.store.body (φ r) = (b.store.body r).rename φ ∧
      a.store.claim (counts ws a) (φ r) = b.store.claim (counts us b) r := by
  obtain ⟨⟨φ, hforth⟩, ψ, hback⟩ := h
  cases v with
  | scalar s => exact .inl ⟨s, rfl, hforth.image⟩
  | node r =>
      cases hforth.image
      have hr : ψ (φ r) = r := (Value.node.inj hback.image).symm
      refine .inr ⟨φ, r, rfl, rfl, hforth.body_eq, (claim_congr ?_ ⟨fun hmine => ?_, ?_⟩).symm⟩
      · rw [Bool.eq_iff_iff]
        refine ⟨hforth.simulated.mirror.frozen (within_node_iff.mp hforth.within), fun hflag => ?_⟩
        have hflag' := hback.simulated.mirror.frozen (within_node_iff.mp hback.within) hflag
        rwa [hr] at hflag'
      · exact (hback.permits (φ r) rfl (hr.symm ▸ hmine)).1
      · exact fun hclaimed => (hforth.permits r rfl hclaimed).1

theorem held_forth (hus : us = ps.map Prod.fst) (hws : ws = ps.map Prod.snd) :
    mirroring.Held ps us ws :=
  ⟨hus, hws ▸ List.Subset.refl _⟩

theorem held_back (hus : us = ps.map Prod.fst) (hws : ws = ps.map Prod.snd) :
    mirroring.Held (ps.map Prod.swap) ws us := by
  refine held_forth ?_ ?_
  · rw [hws, List.map_map]
    rfl
  · rw [hus, List.map_map]
    rfl

/-- The two ways are refused at the same step. -/
theorem follow_refused (h : Relocated ps b a) (hus : us = ps.map Prod.fst)
    (hws : ws = ps.map Prod.snd) (hb : b.scopes.find? name = some c)
    (ha : a.scopes.find? name = some d) (steps : List Step)
    (hrefused : a.store.follow (counts ws a) d.value steps = .error e) :
    b.store.follow (counts us b) c.value steps = .error e := by
  induction steps using List.reverseRecOn with
  | nil => cases hrefused
  | append_singleton steps step ih =>
      rw [follow_concat] at hrefused ⊢
      cases hw : a.store.follow (counts ws a) d.value steps with
      | error e' =>
          rw [hw] at hrefused
          cases hrefused
          rw [ih hw]
          rfl
      | ok w =>
          rw [hw] at hrefused
          obtain ⟨v, hv, hforth⟩ := (mirroring.follow (held_forth hus hws) h.1 hb ha steps).ok hw
          obtain ⟨w', hw', hback⟩ := (mirroring.follow (held_back hus hws) h.2 ha hb steps).ok hv
          cases hw.symm.trans hw'
          rw [hv]
          change a.store.child _ w step = _ at hrefused
          change b.store.child _ v step = _
          obtain ⟨s, rfl, rfl⟩ | ⟨φ, r, rfl, rfl, hbody, hclaim⟩ := Arrives.cases ⟨hforth, hback⟩
          · exact hrefused
          · rw [child_rename hbody hclaim] at hrefused
            cases hchild : b.store.child (counts us b) (.node r) step with
            | ok u =>
                rw [hchild] at hrefused
                cases hrefused
            | error e' =>
                rw [hchild] at hrefused
                cases hrefused
                rfl

/-- Relocated machines are coupled, and end alike. -/
def relocating : Coupling where
  verdict := .exact
  Corr := Relocated
  subset h := h.subset
  likeness h := h.likeness
  joined h := mirroring.joined h.1
  find h := h.find?
  list {ps qs b a} h := by
    refine ⟨mirroring.list h.1, ?_⟩
    have hback := mirroring.list h.split
    rw [List.map_map, List.map_map] at hback
    exact hback
  record {ps b a t} h := by
    refine ⟨mirroring.record h.1, ?_⟩
    have hsplit : Corresponds ((t.map Prod.swap).values ++ ps.map Prod.swap) a b := by
      rw [Table.values_map]
      exact h.split
    have hback := mirroring.record hsplit
    rw [Table.map_map, Table.map_map] at hback
    exact hback
  define h hmem name assignable :=
    ⟨h.1.define hmem name assignable, h.2.define (Relocated.mem_swap hmem) name assignable⟩
  setValue h hmem name _ _ :=
    ⟨h.1.setValue hmem name _ _, h.2.setValue (Relocated.mem_swap hmem) name _ _⟩
  enter h := ⟨h.1.enter, h.2.enter⟩
  leave h := ⟨h.1.leave, h.2.leave⟩
  Held ps us ws := us = ps.map Prod.fst ∧ ws = ps.map Prod.snd
  held := by
    rintro ps us ws ⟨rfl, rfl⟩ qs
    exact ⟨List.map_append.symm, List.map_append.symm⟩
  End := Arrives
  follow := by
    rintro ps us ws b a name c d ⟨hus, hws⟩ h hb ha steps
    exact .both (fun _ => (mirroring.follow (held_forth hus hws) h.1 hb ha steps).ok)
      (fun _ => (mirroring.follow (held_back hus hws) h.2 ha hb steps).ok)
      fun _ => follow_refused h hus hws hb ha steps
  reached h := ⟨mirroring.reached h.1, mirroring.reached h.2⟩
  setKey := by
    rintro ps us ws b a v w new new' h hmem k
    refine (Attempts.both (fun _ => (mirroring.setKey h.1 hmem k).ok)
      (fun _ => (mirroring.setKey h.2 (Relocated.mem_swap hmem) k).ok) fun e he => ?_).imp
      fun st st' hcorr writes writes' => ⟨hcorr.1 writes writes', hcorr.2 writes' writes⟩
    obtain ⟨s, rfl, rfl⟩ | ⟨φ, r, rfl, rfl, hbody, hclaim⟩ := h.cases
    · exact he
    · exact setKey_refused hbody hclaim he
  mapSet := by
    rintro ps us ws b a v w new new' h hmem k
    refine (Attempts.both (fun _ => (mirroring.mapSet h.1 hmem k).ok)
      (fun _ => (mirroring.mapSet h.2 (Relocated.mem_swap hmem) k).ok) fun e he => ?_).imp
      fun st st' hcorr writes writes' => ⟨hcorr.1 writes writes', hcorr.2 writes' writes⟩
    obtain ⟨s, rfl, rfl⟩ | ⟨φ, r, rfl, rfl, hbody, hclaim⟩ := h.cases
    · exact he
    · exact mapSet_refused hbody hclaim he
  mapDelete := by
    rintro ps us ws b a v w h k
    refine (Attempts.both (fun _ => (mirroring.mapDelete h.1 k).ok)
      (fun _ => (mirroring.mapDelete h.2 k).ok) fun e he => ?_).imp
      fun x y hcorr => ⟨hcorr.1.1, fun writes writes' =>
        ⟨hcorr.1.2 writes writes', hcorr.2.2 writes' writes⟩⟩
    obtain ⟨s, rfl, rfl⟩ | ⟨φ, r, rfl, rfl, hbody, hclaim⟩ := h.cases
    · exact he
    · exact mapDelete_refused hbody hclaim he

end Run

end PathCopy
