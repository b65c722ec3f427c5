import PathCopy.Value.Handles

/-!
Freezing. A value is frozen as a whole: `Store.deepFreeze` freezes every node that it reaches
without passing through a node frozen before.
-/

namespace PathCopy

namespace Store

/-- Whether a value cannot be written: scalars never can, a node if it is frozen. -/
def isFrozen (st : Store) : Value → Bool
  | .scalar _ => true
  | .node r => (st.node r).frozen

/-- Freezes the nodes in `work` and everything below those that were not frozen yet. -/
def freezeAll (st : Store) : List Value → Store
  | [] => st
  | .scalar _ :: work => freezeAll st work
  | .node r :: work =>
    if h : r.index < st.nodes.size then
      if st.nodes[r.index].frozen then freezeAll st work
      else freezeAll ⟨st.nodes.set r.index { st.nodes[r.index] with frozen := true }⟩
        (st.nodes[r.index].body.children ++ work)
    else freezeAll st work
  termination_by work => (st.nodes.countP (!·.frozen), work.length)
  decreasing_by
    · exact Prod.Lex.right _ (Nat.lt_succ_self _)
    · exact Prod.Lex.right _ (Nat.lt_succ_self _)
    · next hf =>
      have hpos : 0 < st.nodes.countP (!·.frozen) :=
        Array.countP_pos_iff.2 ⟨_, Array.getElem_mem h, by simpa using hf⟩
      refine Prod.Lex.left _ _ ?_
      rw [Array.countP_set h, if_pos (by simpa using hf), if_neg nofun]
      omega
    · exact Prod.Lex.right _ (Nat.lt_succ_self _)

def deepFreeze (st : Store) (v : Value) : Store := st.freezeAll [v]

/-- Whether every node that a value reaches is frozen. -/
def isDeepFrozen (st : Store) (v : Value) : Bool :=
  let counts := st.handles [v]
  (List.range st.size).all fun i => counts.getD i 0 == 0 || (st.node ⟨i⟩).frozen

end Store

end PathCopy
