import PathCopy.Value.Basic

/-!
Handles. Whoever can reach a node does so through handles: a root is one, and every place inside a
reachable node that refers to the node is another. `Store.handles` counts them all. A node that no
root reaches has none, and what it refers to loses nothing by that.
-/

namespace PathCopy

namespace Store

/-- What is left to count for the node with number `i`: nothing once it has been met. -/
def unmetAt (st : Store) (counts : Array Nat) (i : Nat) : Nat :=
  if counts.getD i 0 = 0 then (st.children ⟨i⟩).length + 1 else 0

def unmet (st : Store) (counts : Array Nat) : Nat :=
  (List.range counts.size).foldr (fun i n => st.unmetAt counts i + n) 0

theorem unmetAt_set_of_ne (st : Store) (counts : Array Nat) {i j : Nat} (h : i < counts.size)
    (n : Nat) (hne : i ≠ j) : st.unmetAt (counts.set i n) j = st.unmetAt counts j := by
  rw [unmetAt, unmetAt, Array.getD_eq_getD_getElem?, Array.getElem?_set_ne h hne,
    Array.getD_eq_getD_getElem?]

/-- Only the one node is counted anew. -/
theorem unmet_set (st : Store) (counts : Array Nat) {i : Nat} (h : i < counts.size) (n : Nat) :
    st.unmet (counts.set i n) + st.unmetAt counts i =
      st.unmet counts + st.unmetAt (counts.set i n) i := by
  have hsum : ∀ is : List Nat, is.Nodup →
      is.foldr (fun i' m => st.unmetAt (counts.set i n) i' + m) 0 +
          (if i ∈ is then st.unmetAt counts i else 0) =
        is.foldr (fun i' m => st.unmetAt counts i' + m) 0 +
          if i ∈ is then st.unmetAt (counts.set i n) i else 0 := by
    intro is
    induction is with
    | nil => intro _; rfl
    | cons j is ih =>
        intro hnodup
        obtain ⟨hj, hnodup⟩ := List.nodup_cons.1 hnodup
        have hrest := ih hnodup
        rw [List.foldr_cons, List.foldr_cons]
        by_cases hij : i = j
        · subst hij
          rw [if_neg hj, if_neg hj] at hrest
          simp only [List.mem_cons_self, if_true]
          omega
        · rw [st.unmetAt_set_of_ne counts h n hij]
          simp only [List.mem_cons, hij, false_or]
          omega
  have hmem : i ∈ List.range counts.size := List.mem_range.2 h
  have hall := hsum (List.range counts.size) List.nodup_range
  rw [if_pos hmem, if_pos hmem] at hall
  rwa [unmet, unmet, Array.size_set]

/-- Counts the handles in `work` and in every node that is met for the first time. A count of zero
marks the nodes that have not been met. -/
def tally (st : Store) (counts : Array Nat) : List Value → Array Nat
  | [] => counts
  | .scalar _ :: work => tally st counts work
  | .node r :: work =>
    if h : r.index < counts.size then
      if counts[r.index] = 0 then tally st (counts.set r.index 1) (st.children r ++ work)
      else tally st (counts.set r.index (counts[r.index] + 1)) work
    else tally st counts work
  termination_by work => st.unmet counts + work.length
  decreasing_by
    · simp
    · next hz =>
      have hset := st.unmet_set counts h 1
      have hold : st.unmetAt counts r.index = (st.children r).length + 1 :=
        if_pos (by rw [Array.getD_eq_getD_getElem?, Array.getElem?_eq_getElem h]; exact hz)
      have hnew : st.unmetAt (counts.set r.index 1) r.index = 0 := if_neg (by simp)
      simp only [List.length_append, List.length_cons]
      omega
    · next hz =>
      have hset := st.unmet_set counts h (counts[r.index] + 1)
      have hold : st.unmetAt counts r.index = 0 :=
        if_neg (by rw [Array.getD_eq_getD_getElem?, Array.getElem?_eq_getElem h]; exact hz)
      have hnew : st.unmetAt (counts.set r.index (counts[r.index] + 1)) r.index = 0 :=
        if_neg (by simp)
      simp only [List.length_cons]
      omega
    · simp

/-- The number of handles to each node, for what the roots reach. -/
def handles (st : Store) (roots : List Value) : Array Nat :=
  st.tally (Array.replicate st.size 0) roots

def handleCount (st : Store) (roots : List Value) (r : Ref) : Nat :=
  (st.handles roots).getD r.index 0

end Store

end PathCopy
