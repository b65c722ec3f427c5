import PathCopy.Proofs.Copies
import PathCopy.Proofs.Trees

/-!
Twin stores. Two callers hold values that are alike, in stores of their own where other nodes may be
shared or frozen. Both stores grow by the same nodes in the same order. Two values are twins if they
are old and alike, or if they are new and were made at the same step; the contents of new nodes are
twins place by place. Then the handles of a new node are the same in number on both sides.
-/

namespace PathCopy

open Store

/-! ### Likeness of values -/

namespace Alike

variable {st st' : Store} {v w : Value}

theorem founded (h : Alike st st' v w) : st.Founded v :=
  @Alike.rec st st' (fun v _ _ => st.Founded v) (fun vs _ _ => ∀ v ∈ vs, st.Founded v)
    founded_scalar (fun _ _ hchildren => founded_node hchildren) (fun _ hv => nomatch hv)
    (fun _ _ hv hvs => List.forall_mem_cons.mpr ⟨hv, hvs⟩) v w h

theorem symm (h : Alike st st' v w) : Alike st' st w v :=
  (likeness_alike st st').symm.alike ((likeness_alike st st').founded h h.founded) h

end Alike

/-! ### One store that grows -/

/-- Where an update starts: a store, and what the caller holds there. -/
structure Origin where
  store : Store
  kept : List Value
  sound : store.Sound kept

namespace Origin

variable {o : Origin} {n i : ℕ} {st : Store} {v : Value} {r : Ref} {body : Body} {vs : List Value}
  {counts : Array Nat}

/-- The node with number `i` among those that are made after the start. -/
def fresh (o : Origin) (i : ℕ) : Ref := ⟨o.store.size + i⟩

def Old (o : Origin) (v : Value) : Prop := o.store.Within o.kept v

/-- A store that has grown by `n` nodes; none of them is frozen or contains itself. -/
structure Grows (o : Origin) (n : ℕ) (st : Store) : Prop
    extends o.store.Grown o.kept st where
  size : st.size = o.store.size + n
  unfrozen : ∀ i < n, (st.node (o.fresh i)).frozen = false
  founded : ∀ i < n, st.Founded (.node (o.fresh i))

open Classical in
/-- The numbers of the new nodes that the values reach. -/
noncomputable def reached (o : Origin) (n : ℕ) (st : Store) (vs : List Value) : Finset ℕ :=
  {j ∈ Finset.range n | st.Reachable vs (o.fresh j)}

theorem mem_reached : i ∈ o.reached n st vs ↔ i < n ∧ st.Reachable vs (o.fresh i) := by
  classical
  rw [reached, Finset.mem_filter, Finset.mem_range]

theorem fresh_inj {j : ℕ} (h : o.fresh i = o.fresh j) : i = j :=
  Nat.add_left_cancel (Ref.mk.inj h)

theorem Old.index_lt (h : o.Old (.node r)) : r.index < o.store.size :=
  o.sound r (within_node_iff.mp h)

theorem Old.reaches {w : Value} (h : o.Old v) (hw : o.store.Reaches v w) : o.Old w :=
  Within.reaches h hw

theorem Old.ne_fresh (h : o.Old v) : v ≠ .node (o.fresh i) := by
  rintro rfl
  exact Nat.not_lt_of_le (Nat.le_add_right _ _) h.index_lt

theorem Old.refersTo (h : o.Old v) : v.refersTo (o.fresh i) = false := by
  cases v with
  | scalar a => rfl
  | node r => simpa [Value.refersTo] using h.ne_fresh (i := i)

theorem grows_start (o : Origin) : o.Grows 0 o.store :=
  ⟨grown_refl _ _, rfl, fun _ hi => absurd hi (Nat.not_lt_zero _), fun _ hi =>
    absurd hi (Nat.not_lt_zero _)⟩

namespace Grows

theorem fresh_lt (h : o.Grows n st) (hi : i < n) : (o.fresh i).index < st.size := by
  rw [h.size]
  exact Nat.add_lt_add_left hi _

theorem body_old (h : o.Grows n st) (hr : o.Old (.node r)) : st.body r = o.store.body r :=
  h.body_eq hr.index_lt

theorem agreeBelow (h : o.Grows n st) (hv : o.Old v) : o.store.AgreeBelow st v :=
  o.sound.agreeBelow h.toExtends hv

/-- What is available is old or one of the new nodes. -/
theorem cases (h : o.Grows n st) (hv : o.store.Available o.kept st v) :
    o.Old v ∨ ∃ i < n, v = .node (o.fresh i) := by
  refine hv.imp id ?_
  rintro ⟨⟨i⟩, rfl, hle, hlt⟩
  obtain ⟨i, rfl⟩ := Nat.exists_eq_add_of_le hle
  rw [h.size] at hlt
  exact ⟨i, Nat.lt_of_add_lt_add_left hlt, rfl⟩

theorem available_fresh (h : o.Grows n st) (hi : i < n) :
    o.store.Available o.kept st (.node (o.fresh i)) :=
  .inr ⟨_, rfl, Nat.le_add_right _ _, h.fresh_lt hi⟩

/-- Nothing old leads to a new node. -/
theorem not_reaches (h : o.Grows n st) (hv : o.Old v) : ¬ st.Reaches v (.node (o.fresh i)) := by
  intro hreach
  exact (hv.reaches ((h.agreeBelow hv).reaches_iff.mp hreach)).ne_fresh rfl

/-- An old node cannot be written: the caller has a handle beside the one that leads to it. -/
theorem not_claimed (h : o.Grows n st) (hr : o.Old (.node r))
    (halone : ∀ u ∈ o.kept, ¬ st.Reaches u (.node r)) : False := by
  obtain ⟨u, hu, hur⟩ := within_node_iff.mp hr
  exact halone u hu ((h.agreeBelow (within_of_mem hu)).reaches_iff.mpr hur)

theorem alloc (h : o.Grows n st)
    (hbody : ∀ c ∈ body.children, o.store.Available o.kept st c ∧ st.Founded c) :
    o.Grows (n + 1) (st.alloc body).2 where
  toGrown := (h.toGrown.alloc fun c hc => (hbody c hc).1).1
  size := by rw [size_alloc, h.size, Nat.add_assoc]
  unfrozen i hi := by
    rw [node_alloc]
    split
    · rfl
    · next hne =>
      refine h.unfrozen i (Nat.lt_of_le_of_ne (Nat.le_of_lt_succ hi) fun heq => hne ?_)
      rw [h.size, heq, fresh]
  founded i hi := by
    have hagree : ∀ u, o.store.Available o.kept st u → st.AgreeBelow (st.alloc body).2 u :=
      fun u hu => h.toGrown.agreeBelow o.sound hu (extends_alloc st body)
    rcases Nat.lt_succ_iff_lt_or_eq.mp hi with hi | rfl
    · exact (hagree _ (h.available_fresh hi)).founded (h.founded i hi)
    · have hnew := founded_alloc (fun c hc => hagree c (hbody c hc).1) fun c hc => (hbody c hc).2
      rwa [fst_alloc, h.size] at hnew

theorem setBody (h : o.Grows n st) (hi : i < n)
    (hbody : ∀ c ∈ body.children, o.store.Available o.kept st c ∧ st.Founded c ∧
      ¬ st.Reaches c (.node (o.fresh i))) :
    o.Grows n (st.setBody (o.fresh i) body) where
  toGrown := h.toGrown.setBody (Nat.le_add_right _ _) fun c hc => (hbody c hc).1
  size := by rw [size_setBody, h.size]
  unfrozen j hj := by
    rw [frozen_setBody]
    exact h.unfrozen j hj
  founded j hj := (h.founded j hj).setBody (h.fresh_lt hi) fun c hc => (hbody c hc).2

/-- Only what is given besides leads to a new node. -/
theorem reachable_fresh (h : o.Grows n st) :
    st.Reachable (vs ++ o.kept) (o.fresh i) ↔ st.Reachable vs (o.fresh i) := by
  refine ⟨?_, fun hreach => hreach.mono (List.subset_append_left vs o.kept)⟩
  rintro ⟨u, hu, hreach⟩
  rcases List.mem_append.mp hu with hu | hu
  · exact ⟨u, hu, hreach⟩
  · exact (h.not_reaches (within_of_mem hu) hreach).elim

open Finset in
/-- The places that refer to a new node are among the given values and in new nodes. -/
theorem places_fresh (h : o.Grows n st) (hvs : ∀ v ∈ vs, o.store.Available o.kept st v) (i : ℕ) :
    st.places (vs ++ o.kept) (o.fresh i) = occurrences (o.fresh i) vs +
      ∑ j ∈ o.reached n st vs, occurrences (o.fresh i) (st.children (o.fresh j)) := by
  have hkept : occurrences (o.fresh i) o.kept = 0 := by
    rw [occurrences, List.countP_eq_zero]
    exact fun u hu => by simp [Old.refersTo (within_of_mem hu)]
  rw [places, occurrences_append, hkept, Nat.add_zero]
  refine congrArg _ (Eq.symm (sum_of_injOn (fun j => (o.fresh j).index) ?_ ?_ ?_ ?_))
  · exact fun j _ k _ hjk => fresh_inj (Ref.eq_of_index_eq hjk)
  · intro j hj
    obtain ⟨hj, hreach⟩ := mem_reached.mp hj
    exact mem_live.mpr ⟨h.fresh_lt hj, h.reachable_fresh.mpr hreach⟩
  · intro k hk hne
    obtain ⟨-, u, hu, hreach⟩ := mem_live.mp hk
    have havailable : o.store.Available o.kept st u := by
      rcases List.mem_append.mp hu with hu | hu
      · exact hvs u hu
      · exact available_of_within (within_of_mem hu)
    rcases h.cases (h.toGrown.available_of_reaches o.sound havailable hreach) with hold | hnew
    · rw [slots, occurrences, List.countP_eq_zero]
      intro c hc
      rw [children, h.body_old hold] at hc
      simp [(hold.reaches (reaches_of_mem_children hc)).refersTo]
    · obtain ⟨j, hj, heq⟩ := hnew
      cases heq
      have hmem := mem_reached.mpr ⟨hj, h.reachable_fresh.mp ⟨u, hu, hreach⟩⟩
      exact absurd ⟨j, mem_coe.mpr hmem, rfl⟩ hne
  · exact fun j _ => rfl

end Grows

end Origin

/-! ### Two stores that grow alike -/

/-- The values are old and alike, or nodes that were made at the same step. -/
inductive Twin (o o' : Origin) (n : ℕ) : Value → Value → Prop
  | old {v w : Value} (left : o.Old v) (right : o'.Old w) (alike : Alike o.store o'.store v w) :
      Twin o o' n v w
  | new {i : ℕ} (lt : i < n) : Twin o o' n (.node (o.fresh i)) (.node (o'.fresh i))

/-- Both stores have grown by `n` nodes, which hold twins. -/
structure Parallel (o o' : Origin) (n : ℕ) (st st' : Store) : Prop where
  left : o.Grows n st
  right : o'.Grows n st'
  body : ∀ i < n, (st.body (o.fresh i)).Match (Twin o o' n) (st'.body (o'.fresh i))

variable {o o' : Origin} {n m i : ℕ} {st st' : Store} {v w : Value} {body body' : Body}
  {vs vs' : List Value}

namespace Twin

theorem symm (h : Twin o o' n v w) : Twin o' o n w v := by
  cases h with
  | old hv hw halike => exact .old hw hv halike.symm
  | new hi => exact .new hi

theorem mono (h : Twin o o' n v w) (hnm : n ≤ m) : Twin o o' m v w := by
  cases h with
  | old hv hw halike => exact .old hv hw halike
  | new hi => exact .new (Nat.lt_of_lt_of_le hi hnm)

theorem scalar (a : Scalar) : Twin o o' n (.scalar a) (.scalar a) :=
  .old (within_scalar a) (within_scalar a) (.scalar a)

/-- The twin of a new node was made at the same step. -/
theorem of_fresh (h : Twin o o' n (.node (o.fresh i)) w) : i < n ∧ w = .node (o'.fresh i) := by
  generalize hv : Value.node (o.fresh i) = v at h
  cases h with
  | old hold _ _ => exact absurd hv.symm hold.ne_fresh
  | new hj =>
      cases Origin.fresh_inj (Value.node.inj hv)
      exact ⟨hj, rfl⟩

theorem refersTo (h : Twin o o' n v w) (i : ℕ) :
    w.refersTo (o'.fresh i) = v.refersTo (o.fresh i) := by
  cases h with
  | old hv hw _ => rw [hv.refersTo, hw.refersTo]
  | @new j hj =>
      rw [Bool.eq_iff_iff, Value.refersTo, Value.refersTo, beq_iff_eq, beq_iff_eq]
      exact ⟨fun heq => congrArg o.fresh (Origin.fresh_inj heq),
        fun heq => congrArg o'.fresh (Origin.fresh_inj heq)⟩

end Twin

/-- Twins refer to a new node equally often. -/
theorem occurrences_twins (h : List.Forall₂ (Twin o o' n) vs vs') (i : ℕ) :
    occurrences (o'.fresh i) vs' = occurrences (o.fresh i) vs := by
  induction h with
  | nil => rfl
  | cons hvw _ ih =>
      rw [occurrences, occurrences, List.countP_cons, List.countP_cons, hvw.refersTo]
      exact congrArg (· + _) ih

namespace Parallel

theorem symm (h : Parallel o o' n st st') : Parallel o' o n st' st where
  left := h.right
  right := h.left
  body i hi := (h.body i hi).symm.mono fun _ _ _ _ => Twin.symm

theorem start (o o' : Origin) : Parallel o o' 0 o.store o'.store :=
  ⟨o.grows_start, o'.grows_start, fun _ hi => absurd hi (Nat.not_lt_zero _)⟩

theorem likeness (h : Parallel o o' n st st') : Likeness st st' (Twin o o' n) where
  refl := Twin.scalar
  scalar hvw := by
    cases hvw with
    | old _ _ halike => exact (likeness_alike _ _).scalar halike
  node {r w} hvw := by
    cases hvw with
    | new hi => exact ⟨_, rfl, h.body _ hi⟩
    | old hr hw halike =>
        obtain ⟨s, rfl, hmatch⟩ := (likeness_alike _ _).node halike
        refine ⟨s, rfl, ?_⟩
        rw [h.left.body_old hr, h.right.body_old hw]
        exact hmatch.mono fun c hc d hd => .old (hr.reaches (reaches_of_mem_children hc))
          (hw.reaches (reaches_of_mem_children hd))

theorem available (h : Parallel o o' n st st') (hvw : Twin o o' n v w) :
    o.store.Available o.kept st v := by
  cases hvw with
  | old hv _ _ => exact available_of_within hv
  | new hi => exact h.left.available_fresh hi

theorem founded (h : Parallel o o' n st st') (hvw : Twin o o' n v w) : st.Founded v := by
  cases hvw with
  | old hv _ halike => exact (h.left.agreeBelow hv).founded halike.founded
  | new hi => exact h.left.founded _ hi

theorem index_lt (h : Parallel o o' n st st') (hvw : Twin o o' n v w) {r : Ref}
    (hr : st.Reaches v (.node r)) : r.index < st.size :=
  h.left.toGrown.index_lt o.sound
    (h.left.toGrown.available_of_reaches o.sound (h.available hvw) hr)

theorem joined_eq (h : Parallel o o' n st st') (hvw : Twin o o' n v w) :
    st'.joined w = st.joined v :=
  h.likeness.joined hvw (h.founded hvw) (fun _ => h.index_lt hvw) fun _ => h.symm.index_lt hvw.symm

theorem alike (h : Parallel o o' n st st') (hvw : Twin o o' n v w) : Alike st st' v w :=
  h.likeness.alike (h.founded hvw) hvw

theorem alloc (h : Parallel o o' n st st') (hbody : body.Match (Twin o o' n) body') :
    Parallel o o' (n + 1) (st.alloc body).2 (st'.alloc body').2 ∧
      Twin o o' (n + 1) (st.alloc body).1 (st'.alloc body').1 := by
  have hmono : ∀ {b b' : Body}, b.Match (Twin o o' n) b' → b.Match (Twin o o' (n + 1)) b' :=
    fun hmatch => hmatch.mono fun _ _ _ _ hcd => hcd.mono (Nat.le_succ n)
  refine ⟨⟨h.left.alloc fun c hc => ?_, h.right.alloc fun d hd => ?_, fun i hi => ?_⟩, ?_⟩
  · obtain ⟨d, -, hcd⟩ := exists_of_forall₂ hbody.children hc
    exact ⟨h.available hcd, h.founded hcd⟩
  · obtain ⟨c, -, hcd⟩ := exists_of_forall₂ hbody.children.flip hd
    exact ⟨h.symm.available hcd.symm, h.symm.founded hcd.symm⟩
  · rcases Nat.lt_succ_iff_lt_or_eq.mp hi with hi | rfl
    · rw [body_alloc_of_ne (Nat.ne_of_lt (h.left.fresh_lt hi)),
        body_alloc_of_ne (Nat.ne_of_lt (h.right.fresh_lt hi))]
      exact hmono (h.body i hi)
    · have hleft : o.fresh i = ⟨st.size⟩ := by rw [h.left.size]; rfl
      have hright : o'.fresh i = ⟨st'.size⟩ := by rw [h.right.size]; rfl
      rw [hleft, hright, body_alloc_self, body_alloc_self]
      exact hmono hbody
  · rw [fst_alloc, fst_alloc, h.left.size, h.right.size]
    exact .new (Nat.lt_succ_self n)

/-- Both sides write the same new node, and what they write does not lead back to it. -/
theorem setBody (h : Parallel o o' n st st') (hi : i < n) (hbody : body.Match (Twin o o' n) body')
    (halone : ∀ c ∈ body.children, ¬ st.Reaches c (.node (o.fresh i)))
    (halone' : ∀ d ∈ body'.children, ¬ st'.Reaches d (.node (o'.fresh i))) :
    Parallel o o' n (st.setBody (o.fresh i) body) (st'.setBody (o'.fresh i) body') := by
  refine ⟨h.left.setBody hi fun c hc => ?_, h.right.setBody hi fun d hd => ?_, fun j hj => ?_⟩
  · obtain ⟨d, -, hcd⟩ := exists_of_forall₂ hbody.children hc
    exact ⟨h.available hcd, h.founded hcd, halone c hc⟩
  · obtain ⟨c, -, hcd⟩ := exists_of_forall₂ hbody.children.flip hd
    exact ⟨h.symm.available hcd.symm, h.symm.founded hcd.symm, halone' d hd⟩
  · by_cases hji : j = i
    · subst hji
      rw [body_setBody_self (h.left.fresh_lt hj), body_setBody_self (h.right.fresh_lt hj)]
      exact hbody
    · rw [body_setBody_of_ne fun heq => hji (Origin.fresh_inj heq),
        body_setBody_of_ne fun heq => hji (Origin.fresh_inj heq)]
      exact h.body j hj

/-! ### Counts -/

/-- Twins lead to the same new nodes. -/
theorem reachable_fresh (h : Parallel o o' n st st') (hvs : List.Forall₂ (Twin o o' n) vs vs')
    (hreach : st.Reachable vs (o.fresh i)) : st'.Reachable vs' (o'.fresh i) := by
  obtain ⟨v, hv, hvi⟩ := hreach
  obtain ⟨w, hw, hvw⟩ := exists_of_forall₂ hvs hv
  obtain ⟨u, hu, hwu⟩ := h.likeness.reaches hvw hvi
  rw [hu.of_fresh.2] at hwu
  exact ⟨w, hw, hwu⟩

/-- A new node has as many handles on the one side as on the other. -/
theorem handles_eq (h : Parallel o o' n st st') (hvs : List.Forall₂ (Twin o o' n) vs vs')
    (hi : i < n) :
    (st'.handles (vs' ++ o'.kept)).getD (o'.fresh i).index 0 =
      (st.handles (vs ++ o.kept)).getD (o.fresh i).index 0 := by
  have havailable : ∀ v ∈ vs, o.store.Available o.kept st v := by
    intro v hv
    obtain ⟨w, -, hvw⟩ := exists_of_forall₂ hvs hv
    exact h.available hvw
  have havailable' : ∀ w ∈ vs', o'.store.Available o'.kept st' w := by
    intro w hw
    obtain ⟨v, -, hvw⟩ := exists_of_forall₂ hvs.flip hw
    exact h.symm.available hvw.symm
  have hback : List.Forall₂ (Twin o' o n) vs' vs := hvs.flip.imp fun _ _ => Twin.symm
  rw [handles_eq_places (h.right.fresh_lt hi), handles_eq_places (h.left.fresh_lt hi),
    h.right.places_fresh havailable', h.left.places_fresh havailable, occurrences_twins hvs]
  refine congrArg _ (Finset.sum_congr (Finset.ext fun j => ?_) fun j hj => ?_)
  · rw [Origin.mem_reached, Origin.mem_reached]
    exact and_congr_right fun _ => ⟨h.symm.reachable_fresh hback, h.reachable_fresh hvs⟩
  · exact occurrences_twins (h.body j (Origin.mem_reached.mp hj).1).children i

end Parallel

end PathCopy
