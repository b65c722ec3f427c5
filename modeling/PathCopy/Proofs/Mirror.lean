import PathCopy.Proofs.Chains
import PathCopy.Proofs.Likeness
import PathCopy.Proofs.Renaming

/-!
Mirrored stores. A store mirrors another one below some roots if a renaming of references leads from
the contents of each node there to the contents of its image. Several nodes may have one image, and
then the other store shares what this one holds apart. A write that the sharing store allows is
allowed here as well, since the image of the written node has no second handle; for the same reason
no other node has this image, and the stores mirror each other after the write.
-/

namespace PathCopy

namespace Store

/-- What the roots reach in `st` has its image in `st'`. -/
structure Mirror (φ : Ref → Ref) (st st' : Store) (roots : List Value) : Prop where
  body : ∀ {r : Ref}, st.Reachable roots r → st'.body (φ r) = (st.body r).rename φ
  frozen : ∀ {r : Ref}, st.Reachable roots r → (st.node r).frozen → (st'.node (φ r)).frozen
  index : ∀ {r : Ref}, st.Reachable roots r → r.index < st.size ∧ (φ r).index < st'.size
  founded : ∀ {v : Value}, v ∈ roots → st.Founded v

variable {φ : Ref → Ref} {st st' st'' : Store} {roots roots' others others' : List Value}
  {u v w w' new : Value} {r s t : Ref} {body : Body} {key : String} {counts counts' : Array Nat}
  {n : ℕ}

namespace Mirror

theorem mono (h : Mirror φ st st' roots) (hsub : ∀ u ∈ roots', st.Within roots u) :
    Mirror φ st st' roots' where
  body hr := h.body (hr.within hsub)
  frozen hr := h.frozen (hr.within hsub)
  index hr := h.index (hr.within hsub)
  founded hv := (hsub _ hv).founded fun _ => h.founded

theorem sound (h : Mirror φ st st' roots) : st.Sound roots := fun _ hr => (h.index hr).1

theorem children_eq (h : Mirror φ st st' roots) (hr : st.Reachable roots r) :
    st'.children (φ r) = (st.children r).map (Value.rename φ) := by
  rw [children, h.body hr, Body.children_rename, children]

theorem reaches (h : Mirror φ st st' roots) (hu : st.Within roots u) (hv : st.Reaches u v) :
    st'.Reaches (u.rename φ) (v.rename φ) := by
  induction hv with
  | refl => exact reaches_refl _ _
  | tail hux hstep ih =>
      obtain ⟨r, rfl, hc⟩ := hstep
      refine ih.trans (reaches_of_mem_children ?_)
      rw [h.children_eq (within_node_iff.mp (hu.reaches hux))]
      exact List.mem_map_of_mem hc

theorem likeness (h : Mirror φ st st' roots) :
    Likeness st st' fun v w => st.Within roots v ∧ w = v.rename φ where
  refl a := ⟨within_scalar a, rfl⟩
  scalar hvw := hvw.2
  node := by
    rintro r w ⟨hr, rfl⟩
    refine ⟨φ r, rfl, ?_⟩
    rw [h.body (within_node_iff.mp hr)]
    exact Body.match_rename fun c hc => ⟨hr.reaches (reaches_of_mem_children hc), rfl⟩

theorem exists_of_reaches (h : Mirror φ st st' roots) (hu : st.Within roots u)
    (hw : st'.Reaches (u.rename φ) w') : ∃ w, w' = w.rename φ ∧ st.Within roots w := by
  obtain ⟨w, ⟨hwithin, rfl⟩, -⟩ := h.likeness.symm.reaches ⟨hu, rfl⟩ hw
  exact ⟨w, rfl, hwithin⟩

theorem joined_eq (h : Mirror φ st st' roots) (hv : st.Within roots v) :
    st'.joined (v.rename φ) = st.joined v := by
  refine h.likeness.joined ⟨hv, rfl⟩ (hv.founded fun _ => h.founded) (fun r hr => ?_) fun r hr => ?_
  · exact h.sound r (within_node_iff.mp (hv.reaches hr))
  · obtain ⟨w, hw, hwithin⟩ := h.exists_of_reaches hv hr
    cases w with
    | scalar a => simp at hw
    | node s =>
        cases hw
        exact (h.index (within_node_iff.mp hwithin)).2

/-! ### Changes on both sides -/

theorem freeze (h : Mirror φ st st' roots) (hfrozen : st'.Frozen st'') :
    Mirror φ st st'' roots where
  body hr := (hfrozen.body_eq _).trans (h.body hr)
  frozen hr hf := hfrozen.frozen _ (h.frozen hr hf)
  index hr := by
    rw [hfrozen.size_eq]
    exact h.index hr
  founded := h.founded

/-- New nodes on both sides mirror each other; the renaming of the old values stays. -/
theorem alloc (h : Mirror φ st st' roots) (hbody : ∀ c ∈ body.children, st.Within roots c) :
    ∃ ψ : Ref → Ref, ψ ⟨st.size⟩ = ⟨st'.size⟩ ∧
      (∀ v, st.Within roots v → v.rename ψ = v.rename φ) ∧
      Mirror ψ (st.alloc body).2 (st'.alloc (body.rename φ)).2 ((st.alloc body).1 :: roots) := by
  have hagree : ∀ v, st.Within roots v → st.AgreeBelow (st.alloc body).2 v := fun v hv =>
    h.sound.agreeBelow (extends_alloc st body) hv
  have hold : ∀ v, st.Within roots v →
      v.rename (Function.update φ ⟨st.size⟩ ⟨st'.size⟩) = v.rename φ := by
    intro v hv
    cases v with
    | scalar a => rfl
    | node r =>
        have hlt := (h.index (within_node_iff.mp hv)).1
        refine congrArg Value.node (Function.update_of_ne ?_ _ _)
        rintro rfl
        exact Nat.lt_irrefl _ hlt
  refine ⟨Function.update φ ⟨st.size⟩ ⟨st'.size⟩, Function.update_self _ _ _, hold, ?_⟩
  -- A node that is reached now is the new one or was reached before.
  have hcases : ∀ {r}, (st.alloc body).2.Reachable ((st.alloc body).1 :: roots) r →
      r = ⟨st.size⟩ ∨ st.Reachable roots r ∧ r.index < st.size ∧
        Function.update φ ⟨st.size⟩ ⟨st'.size⟩ r = φ r := by
    intro r hr
    rcases within_of_alloc h.sound hbody (within_node_iff.mpr hr) with hnew | hwithin
    · exact .inl (Value.node.inj hnew)
    · have hreach := within_node_iff.mp hwithin
      exact .inr ⟨hreach, (h.index hreach).1, Value.node.inj (hold _ hwithin)⟩
  constructor
  · intro r hr
    rcases hcases hr with rfl | ⟨hreach, hlt, heq⟩
    · rw [Function.update_self, body_alloc_self, body_alloc_self]
      exact Body.rename_congr fun c hc => (hold c (hbody c hc)).symm
    · rw [heq, body_alloc_of_ne (Nat.ne_of_lt (h.index hreach).2),
        body_alloc_of_ne (Nat.ne_of_lt hlt), h.body hreach]
      refine Body.rename_congr fun c hc => (hold c ?_).symm
      exact (within_node_iff.mpr hreach).reaches (reaches_of_mem_children hc)
  · intro r hr hfrozen
    rcases hcases hr with rfl | ⟨hreach, hlt, heq⟩
    · rw [node_alloc, if_pos rfl] at hfrozen
      simp at hfrozen
    · rw [node_alloc_of_ne (Nat.ne_of_lt hlt)] at hfrozen
      rw [heq, node_alloc_of_ne (Nat.ne_of_lt (h.index hreach).2)]
      exact h.frozen hreach hfrozen
  · intro r hr
    rw [size_alloc, size_alloc]
    rcases hcases hr with rfl | ⟨hreach, hlt, heq⟩
    · rw [Function.update_self]
      exact ⟨Nat.lt_succ_self _, Nat.lt_succ_self _⟩
    · rw [heq]
      exact ⟨Nat.lt_succ_of_lt hlt, Nat.lt_succ_of_lt (h.index hreach).2⟩
  · intro v hv
    rcases List.mem_cons.mp hv with rfl | hv
    · exact founded_alloc (fun c hc => hagree c (hbody c hc)) fun c hc =>
        (hbody c hc).founded fun _ => h.founded
    · exact (hagree v (within_of_mem hv)).founded (h.founded hv)

theorem setBody (h : Mirror φ st st' roots) (ht : st.Reachable roots t)
    (hunique : ∀ r, st.Reachable roots r → φ r = φ t → r = t)
    (hbody : ∀ c ∈ body.children, st.Within roots c ∧ ¬ st.Reaches c (.node t)) :
    Mirror φ (st.setBody t body) (st'.setBody (φ t) (body.rename φ)) roots := by
  have hback : ∀ {r}, (st.setBody t body).Reachable roots r → st.Reachable roots r := fun hr =>
    within_node_iff.mp (within_of_setBody (fun c hc => (hbody c hc).1) (within_node_iff.mpr hr))
  constructor
  · intro r hr
    by_cases hrt : r = t
    · subst hrt
      rw [body_setBody_self (h.index ht).2, body_setBody_self (h.index ht).1]
    · rw [body_setBody_of_ne hrt, body_setBody_of_ne fun he => hrt (hunique r (hback hr) he),
        h.body (hback hr)]
  · intro r hr hfrozen
    rw [frozen_setBody] at hfrozen ⊢
    exact h.frozen (hback hr) hfrozen
  · intro r hr
    rw [size_setBody, size_setBody]
    exact h.index (hback hr)
  · intro v hv
    exact (h.founded hv).setBody (h.index ht).1 fun c hc =>
      ⟨(hbody c hc).1.founded fun _ => h.founded, (hbody c hc).2⟩

end Mirror

end Store

end PathCopy
