import Mathlib.Algebra.BigOperators.Group.Finset.Basic
import Mathlib.Algebra.Order.BigOperators.Group.Finset
import PathCopy.Proofs.Reach
import PathCopy.Value.Handles

/-!
What the count of handles means. A place that refers to a node is a root or a slot of a node within
reach of the roots; `Store.handles` counts exactly these places. A root is the only handle to its
node if and only if neither its own children nor the other roots lead back to it, and such a node
can be opened: its children take its place among the roots, and every other count stays.
-/

namespace PathCopy

def Value.refersTo (r : Ref) : Value → Bool
  | .scalar _ => false
  | .node s => s == r

def occurrences (r : Ref) (vs : List Value) : Nat := vs.countP (Value.refersTo r)

@[simp] theorem occurrences_nil (r : Ref) : occurrences r [] = 0 := rfl

@[simp] theorem occurrences_scalar (r : Ref) (a : Scalar) (vs : List Value) :
    occurrences r (.scalar a :: vs) = occurrences r vs :=
  List.countP_cons_of_neg (by simp [Value.refersTo])

@[simp] theorem occurrences_self (r : Ref) (vs : List Value) :
    occurrences r (.node r :: vs) = occurrences r vs + 1 :=
  List.countP_cons_of_pos (by simp [Value.refersTo])

theorem occurrences_of_ne {r s : Ref} (h : s ≠ r) (vs : List Value) :
    occurrences r (.node s :: vs) = occurrences r vs :=
  List.countP_cons_of_neg (by simp [Value.refersTo, h])

@[simp] theorem occurrences_append (r : Ref) (vs ws : List Value) :
    occurrences r (vs ++ ws) = occurrences r vs + occurrences r ws :=
  List.countP_append

theorem occurrences_pos {r : Ref} {vs : List Value} : 0 < occurrences r vs ↔ .node r ∈ vs := by
  rw [occurrences, List.countP_pos_iff]
  constructor
  · rintro ⟨v, hv, hr⟩
    cases v with
    | scalar a => cases hr
    | node s =>
        rw [Value.refersTo, beq_iff_eq] at hr
        rwa [← hr]
  · intro h
    exact ⟨_, h, by simp [Value.refersTo]⟩

namespace Store

open Finset

variable {st : Store} {roots roots' others work : List Value} {counts : Array Nat} {r s : Ref}

/-- The references to `r` in the slots of the node with number `i`. -/
def slots (st : Store) (r : Ref) (i : ℕ) : ℕ := occurrences r (st.children ⟨i⟩)

theorem slots_index (st : Store) (r s : Ref) : st.slots r s.index = occurrences r (st.children s) :=
  rfl

def met (st : Store) (counts : Array Nat) : Finset ℕ :=
  {i ∈ range st.size | counts.getD i 0 ≠ 0}

theorem mem_met {i : ℕ} : i ∈ st.met counts ↔ i < st.size ∧ counts.getD i 0 ≠ 0 := by
  rw [met, mem_filter, mem_range]

/-- A tally under way: every reference from a root or from a node that has been met is either
counted or still in `work`, and only nodes within reach have been met. -/
structure Tallying (st : Store) (roots : List Value) (counts : Array Nat) (work : List Value) :
    Prop where
  size : counts.size = st.size
  balance : ∀ r : Ref, r.index < st.size → counts.getD r.index 0 + occurrences r work =
    occurrences r roots + ∑ i ∈ st.met counts, st.slots r i
  reached : ∀ r : Ref, counts.getD r.index 0 ≠ 0 → st.Reachable roots r
  within : ∀ v ∈ work, st.Within roots v

theorem getD_set (h : r.index < counts.size) (n i : ℕ) :
    (counts.set r.index n).getD i 0 = if r.index = i then n else counts.getD i 0 := by
  simp only [Array.getD_eq_getD_getElem?, Array.getElem?_set]
  split <;> simp

theorem tallying_start (st : Store) (roots : List Value) :
    st.Tallying roots (Array.replicate st.size 0) roots where
  size := Array.size_replicate
  balance r _ := by
    have hmet : st.met (Array.replicate st.size 0) = ∅ := by
      ext i
      rw [mem_met, Array.getD_eq_getD_getElem?, Array.getElem?_replicate]
      split <;> simp
    rw [hmet, sum_empty, Array.getD_eq_getD_getElem?, Array.getElem?_replicate]
    split <;> simp
  reached r h := by
    rw [Array.getD_eq_getD_getElem?, Array.getElem?_replicate] at h
    split at h <;> simp at h
  within v hv := within_of_mem hv

/-- Meeting a node for the first time puts its children to the work. -/
theorem Tallying.meet (h : st.Tallying roots counts (.node r :: work))
    (hr : r.index < counts.size) (hzero : counts.getD r.index 0 = 0) :
    st.Tallying roots (counts.set r.index 1) (st.children r ++ work) where
  size := by rw [Array.size_set]; exact h.size
  balance s hs := by
    have hmet : st.met (counts.set r.index 1) = insert r.index (st.met counts) := by
      ext i
      rw [mem_insert, mem_met, mem_met, getD_set hr]
      by_cases hi : r.index = i
      · simp [← hi, ← h.size, hr]
      · simp [hi, Ne.symm hi]
    have hnew : r.index ∉ st.met counts := fun hmem => (mem_met.mp hmem).2 hzero
    -- The node leaves the work for its count. Its children join the work as its slots are met.
    have hbalance := h.balance s hs
    rw [hmet, sum_insert hnew, slots_index, getD_set hr]
    by_cases hrs : r = s
    · subst hrs
      rw [hzero, occurrences_self] at hbalance
      rw [if_pos rfl, occurrences_append]
      omega
    · have hindex : r.index ≠ s.index := fun he => hrs (Ref.eq_of_index_eq he)
      rw [occurrences_of_ne hrs] at hbalance
      rw [if_neg hindex, occurrences_append]
      omega
  reached s hs := by
    by_cases hrs : r = s
    · exact hrs ▸ within_node_iff.mp (h.within _ List.mem_cons_self)
    · have hindex : r.index ≠ s.index := fun he => hrs (Ref.eq_of_index_eq he)
      rw [getD_set hr, if_neg hindex] at hs
      exact h.reached s hs
  within v hv := by
    rcases List.mem_append.mp hv with hv | hv
    · exact (h.within _ List.mem_cons_self).reaches (reaches_of_mem_children hv)
    · exact h.within v (List.mem_cons_of_mem _ hv)

/-- Meeting a node again only counts the handle. -/
theorem Tallying.again (h : st.Tallying roots counts (.node r :: work))
    (hr : r.index < counts.size) (hpos : counts.getD r.index 0 ≠ 0) :
    st.Tallying roots (counts.set r.index (counts.getD r.index 0 + 1)) work where
  size := by rw [Array.size_set]; exact h.size
  balance s hs := by
    have hmet : st.met (counts.set r.index (counts.getD r.index 0 + 1)) = st.met counts := by
      ext i
      rw [mem_met, mem_met, getD_set hr]
      by_cases hi : r.index = i
      · rw [if_pos hi, ← hi]
        exact and_congr_right fun _ => iff_of_true (Nat.succ_ne_zero _) hpos
      · rw [if_neg hi]
    have hbalance := h.balance s hs
    rw [hmet, getD_set hr]
    by_cases hrs : r = s
    · subst hrs
      rw [occurrences_self] at hbalance
      rw [if_pos rfl]
      omega
    · have hindex : r.index ≠ s.index := fun he => hrs (Ref.eq_of_index_eq he)
      rw [occurrences_of_ne hrs] at hbalance
      rw [if_neg hindex]
      omega
  reached s hs := by
    by_cases hrs : r = s
    · exact hrs ▸ within_node_iff.mp (h.within _ List.mem_cons_self)
    · have hindex : r.index ≠ s.index := fun he => hrs (Ref.eq_of_index_eq he)
      rw [getD_set hr, if_neg hindex] at hs
      exact h.reached s hs
  within v hv := h.within v (List.mem_cons_of_mem _ hv)

theorem Tallying.skip {v : Value} (h : st.Tallying roots counts (v :: work))
    (hv : ∀ r : Ref, r.index < st.size → v ≠ .node r) : st.Tallying roots counts work where
  size := h.size
  balance s hs := by
    have hbalance := h.balance s hs
    cases v with
    | scalar a => rwa [occurrences_scalar] at hbalance
    | node r => rwa [occurrences_of_ne (fun he => hv s hs (congrArg Value.node he))] at hbalance
  reached := h.reached
  within v hv := h.within v (List.mem_cons_of_mem _ hv)

theorem Tallying.tally (h : st.Tallying roots counts work) :
    st.Tallying roots (st.tally counts work) [] := by
  fun_induction st.tally counts work with
  | case1 counts => exact h
  | case2 counts a work ih => exact ih (h.skip fun r _ hr => nomatch hr)
  | case3 counts r work hr hzero ih =>
      refine ih (h.meet hr ?_)
      rwa [Array.getD_eq_getD_getElem?, Array.getElem?_eq_getElem hr]
  | case4 counts r work hr hpos ih =>
      have hget : counts.getD r.index 0 = counts[r.index] := by
        rw [Array.getD_eq_getD_getElem?, Array.getElem?_eq_getElem hr]
        rfl
      exact ih (hget ▸ h.again hr (hget ▸ hpos))
  | case5 counts r work hr ih =>
      refine ih (h.skip fun s hs he => hr ?_)
      cases he
      rw [h.size]
      exact hs

theorem tallying_handles (st : Store) (roots : List Value) :
    st.Tallying roots (st.handles roots) [] :=
  (tallying_start st roots).tally

/-- A node has a count if and only if the roots reach it. -/
theorem handles_ne_zero_iff (hr : r.index < st.size) :
    (st.handles roots).getD r.index 0 ≠ 0 ↔ st.Reachable roots r := by
  have h := tallying_handles st roots
  refine ⟨h.reached r, ?_⟩
  -- Whatever is met has met children, since the balance leaves no reference uncounted.
  have hslot : ∀ s q : Ref, q.index < st.size → (st.handles roots).getD s.index 0 ≠ 0 →
      .node q ∈ st.children s → (st.handles roots).getD q.index 0 ≠ 0 := by
    intro s q hq hs hmem hzero
    have hbalance := h.balance q hq
    have hsmet : s.index ∈ st.met (st.handles roots) :=
      mem_met.mpr ⟨index_lt_of_mem_children hmem, hs⟩
    have hpos : 0 < st.slots q s.index := occurrences_pos.mpr hmem
    have hle := single_le_sum (f := st.slots q) (fun _ _ => Nat.zero_le _) hsmet
    rw [occurrences_nil] at hbalance
    omega
  rintro ⟨v, hv, hreach⟩
  have hroot : ∀ q : Ref, q.index < st.size → .node q ∈ roots →
      (st.handles roots).getD q.index 0 ≠ 0 := by
    intro q hq hmem hzero
    have hbalance := h.balance q hq
    have hpos : 0 < occurrences q roots := occurrences_pos.mpr hmem
    rw [occurrences_nil] at hbalance
    omega
  have hall := hreach.inherit (P := fun w => ∀ q : Ref, w = .node q → q.index < st.size →
      (st.handles roots).getD q.index 0 ≠ 0) ?_ ?_
  · exact hall r rfl hr
  · rintro q rfl hq
    exact hroot q hq hv
  · rintro s hs c hc q rfl hq
    exact hslot s q hq (hs s rfl (index_lt_of_mem_children hc)) hc

open Classical in
noncomputable def live (st : Store) (roots : List Value) : Finset ℕ :=
  {i ∈ range st.size | st.Reachable roots ⟨i⟩}

theorem mem_live {i : ℕ} : i ∈ st.live roots ↔ i < st.size ∧ st.Reachable roots ⟨i⟩ := by
  classical
  rw [live, mem_filter, mem_range]

/-- The number of places that refer to a node: roots, and slots of nodes that the roots reach. -/
noncomputable def places (st : Store) (roots : List Value) (r : Ref) : ℕ :=
  occurrences r roots + ∑ i ∈ st.live roots, st.slots r i

/-- The count of handles is the number of places. -/
theorem handles_eq_places (hr : r.index < st.size) :
    (st.handles roots).getD r.index 0 = st.places roots r := by
  have hmet : st.met (st.handles roots) = st.live roots := by
    ext i
    rw [mem_met, mem_live]
    exact and_congr_right fun hi => handles_ne_zero_iff (r := ⟨i⟩) hi
  have hbalance := (tallying_handles st roots).balance r hr
  rw [occurrences_nil, Nat.add_zero] at hbalance
  rw [hbalance, places, hmet]

/-! ### Nodes with one handle -/

theorem slot_le_places (hs : st.Reachable roots s) (hmem : .node r ∈ st.children s) :
    occurrences r roots + 1 ≤ st.places roots r := by
  have hsmem : s.index ∈ st.live roots := mem_live.mpr ⟨index_lt_of_mem_children hmem, hs⟩
  have hle := single_le_sum (f := st.slots r) (fun _ _ => Nat.zero_le _) hsmem
  have hpos : 0 < st.slots r s.index := occurrences_pos.mpr hmem
  rw [places]
  omega

/-- A root is the only handle to its node if and only if nothing else leads to the node. -/
theorem places_le_one_iff :
    st.places (.node r :: others) r ≤ 1 ↔
      ∀ u ∈ st.children r ++ others, ¬st.Reaches u (.node r) := by
  constructor
  · intro hone u hu hreach
    -- The root is one place of the node, so a slot would be a second one.
    have hslot : ∀ s, st.Reachable (.node r :: others) s → .node r ∈ st.children s → False := by
      intro s hs hmem
      have := slot_le_places hs hmem
      rw [occurrences_self] at this
      omega
    have hself : st.Reachable (.node r :: others) r := reachable_of_mem List.mem_cons_self
    rcases List.mem_append.mp hu with hu | hu
    · rcases reaches_to_node hreach with rfl | ⟨s, hus, hmem⟩
      · exact hslot r hself hu
      · exact hslot s ⟨_, List.mem_cons_self, (reaches_of_mem_children hu).trans hus⟩ hmem
    · rcases reaches_to_node hreach with rfl | ⟨s, hus, hmem⟩
      · have hpos : 0 < occurrences r others := occurrences_pos.mpr hu
        rw [places, occurrences_self] at hone
        omega
      · exact hslot s ⟨u, List.mem_cons_of_mem _ hu, hus⟩ hmem
  · intro halone
    have hothers : occurrences r others = 0 := by
      refine Nat.eq_zero_of_not_pos fun hpos => ?_
      exact halone _ (List.mem_append_right _ (occurrences_pos.mp hpos)) (reaches_refl st _)
    -- A slot that holds the node would let a child or another root reach it.
    have hslots : ∀ i ∈ st.live (.node r :: others), st.slots r i = 0 := by
      intro i hi
      refine Nat.eq_zero_of_not_pos fun hpos => ?_
      have hmem := occurrences_pos.mp hpos
      obtain ⟨u, hu, hreach⟩ := (mem_live.mp hi).2
      have hback := hreach.trans (reaches_of_mem_children hmem)
      rcases List.mem_cons.mp hu with rfl | hu
      · rcases reaches_node_iff.mp hreach with he | ⟨c, hc, hcr⟩
        · cases he
          exact halone _ (List.mem_append_left _ hmem) (reaches_refl st _)
        · exact halone c (List.mem_append_left _ hc)
            (hcr.trans (reaches_of_mem_children hmem))
      · exact halone u (List.mem_append_right _ hu) hback
    rw [places, occurrences_self, hothers, sum_eq_zero hslots, Nat.zero_add, Nat.add_zero]

/-- What the roots reach once a node with one handle is opened. -/
theorem reachable_open_iff (halone : ∀ u ∈ st.children r ++ others, ¬st.Reaches u (.node r)) :
    st.Reachable (.node r :: others) s ↔
      s = r ∨ s ≠ r ∧ st.Reachable (st.children r ++ others) s := by
  constructor
  · rintro ⟨u, hu, hreach⟩
    by_cases hsr : s = r
    · exact .inl hsr
    refine .inr ⟨hsr, ?_⟩
    rcases List.mem_cons.mp hu with rfl | hu
    · rcases reaches_node_iff.mp hreach with he | ⟨c, hc, hcs⟩
      · cases he
        exact absurd rfl hsr
      · exact ⟨c, List.mem_append_left _ hc, hcs⟩
    · exact ⟨u, List.mem_append_right _ hu, hreach⟩
  · rintro (rfl | ⟨-, u, hu, hreach⟩)
    · exact reachable_of_mem List.mem_cons_self
    · rcases List.mem_append.mp hu with hu | hu
      · exact ⟨_, List.mem_cons_self, (reaches_of_mem_children hu).trans hreach⟩
      · exact ⟨u, List.mem_cons_of_mem _ hu, hreach⟩

/-- Opening a node with one handle keeps the count of every other node. -/
theorem places_open (hr : r.index < st.size)
    (halone : ∀ u ∈ st.children r ++ others, ¬st.Reaches u (.node r)) (hsr : s ≠ r) :
    st.places (.node r :: others) s = st.places (st.children r ++ others) s := by
  have hset : st.live (.node r :: others) =
      insert r.index (st.live (st.children r ++ others)) := by
    ext i
    rw [mem_insert, mem_live, mem_live, reachable_open_iff halone]
    constructor
    · rintro ⟨hi, he | ⟨-, hreach⟩⟩
      · exact .inl (congrArg Ref.index he)
      · exact .inr ⟨hi, hreach⟩
    · rintro (rfl | ⟨hi, hreach⟩)
      · exact ⟨hr, .inl rfl⟩
      · refine ⟨hi, .inr ⟨?_, hreach⟩⟩
        rintro rfl
        obtain ⟨u, hu, hur⟩ := hreach
        exact halone u hu hur
  have hnew : r.index ∉ st.live (st.children r ++ others) := by
    intro hmem
    obtain ⟨u, hu, hur⟩ := (mem_live.mp hmem).2
    exact halone u hu hur
  rw [places, hset, sum_insert hnew, occurrences_of_ne hsr.symm, places, occurrences_append,
    slots_index]
  omega

theorem places_perm (hperm : roots.Perm roots') : st.places roots r = st.places roots' r := by
  have hreach : ∀ s, st.Reachable roots s ↔ st.Reachable roots' s := fun s =>
    ⟨fun h => h.mono hperm.subset, fun h => h.mono hperm.symm.subset⟩
  have hlive : st.live roots = st.live roots' := by
    ext i
    rw [mem_live, mem_live, hreach]
  rw [places, places, hlive, occurrences, hperm.countP_eq, occurrences]

/-- More handles to what is within reach count at the nodes that they refer to, and nowhere else. -/
theorem places_append_within (h : ∀ v ∈ others, st.Within roots v) :
    st.places (others ++ roots) r = occurrences r others + st.places roots r := by
  have hroots : ∀ v ∈ others ++ roots, st.Within roots v := fun v hv =>
    (List.mem_append.mp hv).elim (h v) within_of_mem
  have hlive : st.live (others ++ roots) = st.live roots := by
    ext i
    rw [mem_live, mem_live]
    exact and_congr_right fun _ => ⟨fun hr => hr.within hroots,
      fun hr => hr.mono (List.subset_append_right others roots)⟩
  rw [places, places, hlive, occurrences_append, Nat.add_assoc]

/-- Values that do not lead to a node bring no handles to it. -/
theorem places_append_apart (h : ∀ v ∈ others, ¬st.Reaches v (.node r)) :
    st.places (others ++ roots) r = st.places roots r := by
  have hothers : occurrences r others = 0 := by
    refine Nat.eq_zero_of_not_pos fun hpos => ?_
    exact h _ (occurrences_pos.mp hpos) (reaches_refl st _)
  have hsub : st.live roots ⊆ st.live (others ++ roots) := by
    intro i hi
    obtain ⟨hsize, hr⟩ := mem_live.mp hi
    exact mem_live.mpr ⟨hsize, hr.mono (List.subset_append_right others roots)⟩
  rw [places, places, occurrences_append, hothers, Nat.zero_add]
  refine congrArg _ (sum_subset hsub fun i hi hnot => ?_).symm
  -- A node that only the other values reach has no slot for this one.
  obtain ⟨hsize, v, hv, hreach⟩ := mem_live.mp hi
  refine Nat.eq_zero_of_not_pos fun hpos => ?_
  rcases List.mem_append.mp hv with hv | hv
  · exact h v hv (hreach.trans (reaches_of_mem_children (occurrences_pos.mp hpos)))
  · exact hnot (mem_live.mpr ⟨hsize, v, hv, hreach⟩)

/-- The counts are right for the nodes that the roots reach. -/
def Counted (st : Store) (counts : Array Nat) (roots : List Value) : Prop :=
  ∀ r : Ref, r.index < st.size → st.Reachable roots r →
    counts.getD r.index 0 = st.places roots r

theorem counted_handles (st : Store) (roots : List Value) :
    st.Counted (st.handles roots) roots :=
  fun _ hr _ => handles_eq_places hr

theorem Counted.perm (h : st.Counted counts roots) (hperm : roots.Perm roots') :
    st.Counted counts roots' := by
  intro r hr hreach
  rw [h r hr (hreach.mono hperm.symm.subset), places_perm hperm]

/-- A count of one says that nothing else leads to the node. -/
theorem Counted.alone (h : st.Counted counts (.node r :: others)) (hr : r.index < st.size)
    (hone : counts.getD r.index 0 ≤ 1) :
    ∀ u ∈ st.children r ++ others, ¬st.Reaches u (.node r) := by
  rw [h r hr (reachable_of_mem List.mem_cons_self)] at hone
  exact places_le_one_iff.mp hone

theorem Counted.le_one (h : st.Counted counts (.node r :: others)) (hr : r.index < st.size)
    (halone : ∀ u ∈ st.children r ++ others, ¬st.Reaches u (.node r)) :
    counts.getD r.index 0 ≤ 1 := by
  rw [h r hr (reachable_of_mem List.mem_cons_self)]
  exact places_le_one_iff.mpr halone

/-- The counts stay right when a node with one handle is opened. -/
theorem Counted.open (h : st.Counted counts (.node r :: others)) (hr : r.index < st.size)
    (halone : ∀ u ∈ st.children r ++ others, ¬st.Reaches u (.node r)) :
    st.Counted counts (st.children r ++ others) := by
  intro s hs hreach
  have hsr : s ≠ r := by
    rintro rfl
    obtain ⟨u, hu, hus⟩ := hreach
    exact halone u hu hus
  have hwide : st.Reachable (.node r :: others) s :=
    (reachable_open_iff halone).mpr (.inr ⟨hsr, hreach⟩)
  rw [h s hs hwide, places_open hr halone hsr]

end Store

end PathCopy
