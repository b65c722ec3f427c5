import PathCopy.Procedure.Walk

/-!
Phrases as trees: the children of a phrase, induction over a phrase and everything inside it, and
the walk in reading order as one step followed by the walks of the children.
-/

namespace PathCopy

def Expr.children : Expr → List Expr
  | .number .. | .string .. | .bool .. | .null .. | .undefined .. | .ident .. => []
  | .member _ base _ => [base]
  | .index _ base key => [base, key]
  | .call _ callee args => callee :: args
  | .assign _ _ target value => [target, value]
  | .step _ _ _ target => [target]
  | .binary _ _ left right => [left, right]
  | .unary _ _ operand => [operand]
  | .array _ items => items
  | .object _ entries => entries.map Property.value

def Stmt.children : Stmt → List Phrase
  | .expr _ value => [.expr value]
  | .declare _ _ _ initial => initial.toList.map .expr
  | .ret _ value => value.toList.map .expr
  | .block _ _ body => body.map .stmt
  | .empty _ => []

namespace Phrase

def children : Phrase → List Phrase
  | .stmt s => s.children
  | .expr e => e.children.map .expr

/-- A phrase and everything inside it, in reading order. -/
def all : Phrase → List Phrase
  | .stmt s => s.phrases
  | .expr e => e.nodes.map .expr

end Phrase

def ProcedureBody.roots : ProcedureBody → List Phrase
  | .expr value => [.expr value]
  | .block _ body => body.map .stmt

/-! ### The walk -/

namespace Expr

theorem nodesOfList_eq (es : List Expr) : nodesOfList es = es.flatMap nodes := by
  induction es with
  | nil => rfl
  | cons e es ih => rw [nodesOfList, ih, List.flatMap_cons]

theorem nodesOfEntries_eq (ps : List Property) :
    nodesOfEntries ps = (ps.map Property.value).flatMap nodes := by
  induction ps with
  | nil => rfl
  | cons p ps ih =>
      cases p
      rw [nodesOfEntries, ih]
      rfl

theorem nodes_eq (e : Expr) : e.nodes = e :: e.children.flatMap nodes := by
  cases e <;> simp [nodes, children, nodesOfList_eq, nodesOfEntries_eq]

end Expr

theorem Stmt.phrasesOfList_eq (ss : List Stmt) : phrasesOfList ss = ss.flatMap phrases := by
  induction ss with
  | nil => rfl
  | cons s ss ih => rw [phrasesOfList, ih, List.flatMap_cons]

namespace Phrase

theorem flatMap_all_expr (es : List Expr) :
    (es.map .expr).flatMap all = (es.flatMap Expr.nodes).map .expr := by
  rw [List.flatMap_map, List.map_flatMap]
  rfl

theorem flatMap_all_stmt (ss : List Stmt) :
    (ss.map .stmt).flatMap all = ss.flatMap Stmt.phrases := by
  rw [List.flatMap_map]
  rfl

theorem all_eq (q : Phrase) : q.all = q :: q.children.flatMap all := by
  cases q with
  | expr e =>
      rw [children, flatMap_all_expr, all, Expr.nodes_eq]
      rfl
  | stmt s =>
      cases s with
      | expr span value => simp [all, children, Stmt.children, Stmt.phrases]
      | declare span name assignable initial =>
          cases initial <;>
            simp [all, children, Stmt.children, Stmt.phrases, Expr.nodesOfOption]
      | ret span value =>
          cases value <;> simp [all, children, Stmt.children, Stmt.phrases, Expr.nodesOfOption]
      | block span first body =>
          rw [children, Stmt.children, flatMap_all_stmt, all, Stmt.phrases,
            Stmt.phrasesOfList_eq]
      | empty span => rfl

theorem mem_all_self (q : Phrase) : q ∈ q.all := by
  rw [all_eq]
  exact List.mem_cons_self

theorem mem_all_iff {q r : Phrase} : r ∈ q.all ↔ r = q ∨ ∃ c ∈ q.children, r ∈ c.all := by
  rw [all_eq, List.mem_cons, List.mem_flatMap]

end Phrase

theorem ProcedureBody.phrases_eq (b : ProcedureBody) : b.phrases = b.roots.flatMap Phrase.all := by
  cases b with
  | expr value => simp [phrases, roots, Phrase.all]
  | block first body => rw [roots, Phrase.flatMap_all_stmt, phrases, Stmt.phrasesOfList_eq]

/-! ### Induction -/

theorem Expr.sizeOf_lt_of_mem_children {e c : Expr} (h : c ∈ e.children) : sizeOf c < sizeOf e := by
  cases e with
  | number | string | bool | null | undefined | ident => cases h
  | member | step | unary =>
      obtain rfl := List.mem_singleton.mp h
      simp only [member.sizeOf_spec, step.sizeOf_spec, unary.sizeOf_spec]
      omega
  | index | assign | binary =>
      simp only [index.sizeOf_spec, assign.sizeOf_spec, binary.sizeOf_spec]
      simp only [children, List.mem_cons, List.not_mem_nil, or_false] at h
      rcases h with rfl | rfl <;> omega
  | call site callee args =>
      simp only [call.sizeOf_spec]
      rcases List.mem_cons.mp h with rfl | h
      · omega
      · have := List.sizeOf_lt_of_mem h
        omega
  | array site items =>
      have hc : c ∈ items := h
      have := List.sizeOf_lt_of_mem hc
      simp only [array.sizeOf_spec]
      omega
  | object site entries =>
      obtain ⟨⟨key, span, value⟩, hp, rfl⟩ := List.mem_map.mp h
      have := List.sizeOf_lt_of_mem hp
      simp only [Property.entry.sizeOf_spec] at this
      simp only [object.sizeOf_spec, Property.value]
      omega

/-- What holds of an expression if it holds of its children holds of all expressions. -/
theorem Expr.induct {P : Expr → Prop} (h : ∀ e, (∀ c ∈ e.children, P c) → P e) (e : Expr) : P e :=
  h e fun c _ => Expr.induct h c
termination_by sizeOf e
decreasing_by exact sizeOf_lt_of_mem_children ‹_›

theorem Stmt.sizeOf_lt_of_mem_children {s c : Stmt} (h : .stmt c ∈ s.children) :
    sizeOf c < sizeOf s := by
  cases s with
  | block span first body =>
      have hc : c ∈ body := by simpa [children] using h
      have := List.sizeOf_lt_of_mem hc
      simp only [block.sizeOf_spec]
      omega
  | expr | empty | declare | ret => simp [children] at h

/-- What holds of a statement if it holds of the statements in it holds of all statements. -/
theorem Stmt.induct {P : Stmt → Prop} (h : ∀ s, (∀ c, .stmt c ∈ s.children → P c) → P s)
    (s : Stmt) : P s :=
  h s fun c _ => Stmt.induct h c
termination_by sizeOf s
decreasing_by exact sizeOf_lt_of_mem_children ‹_›

/-- What holds of a phrase if it holds of its children holds of all phrases. -/
theorem Phrase.induct {P : Phrase → Prop} (h : ∀ q, (∀ c ∈ q.children, P c) → P q) (q : Phrase) :
    P q := by
  have hexpr : ∀ e, P (.expr e) := Expr.induct fun e he => h _ (List.forall_mem_map.mpr he)
  cases q with
  | expr e => exact hexpr e
  | stmt s =>
      induction s using Stmt.induct with
      | h s ih =>
          refine h _ fun c hc => ?_
          cases c with
          | expr e => exact hexpr e
          | stmt c => exact ih c hc

/-- What is directly inside a phrase of the walk is in the walk. -/
theorem Phrase.mem_all_of_child {q r c : Phrase} (hr : r ∈ q.all) (hc : c ∈ r.children) :
    c ∈ q.all := by
  induction q using Phrase.induct with
  | h q ih =>
      rcases mem_all_iff.mp hr with rfl | ⟨d, hd, hr⟩
      · exact mem_all_iff.mpr (.inr ⟨c, hc, c.mem_all_self⟩)
      · exact mem_all_iff.mpr (.inr ⟨d, hd, ih d hd hr⟩)

end PathCopy
