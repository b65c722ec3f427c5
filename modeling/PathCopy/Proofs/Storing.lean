import Mathlib.Data.List.Intervals
import PathCopy.Proofs.Building
import PathCopy.Proofs.Tables

/-!
What reading stores. The statements of the walk get places from the blocks that they stand in; with
these, every row that is new after some phrases have been completed belongs to one of them, and to
one only.
-/

namespace PathCopy

mutual

/-- A statement at a place and the statements inside it with theirs, in reading order. -/
def Stmt.placed (i : Nat) : Stmt → List (Nat × Stmt)
  | s@(.block _ first body) => (i, s) :: Stmt.placedFrom first body
  | s@(.expr ..) | s@(.declare ..) | s@(.ret ..) | s@(.empty _) => [(i, s)]

/-- Statements that stand one after the other from a place on. -/
def Stmt.placedFrom (i : Nat) : List Stmt → List (Nat × Stmt)
  | [] => []
  | s :: rest => s.placed i ++ Stmt.placedFrom (i + 1) rest

end

/-- The statements of a body with their places, in reading order. -/
def ProcedureBody.placed : ProcedureBody → List (Nat × Stmt)
  | .expr _ => []
  | .block first body => Stmt.placedFrom first body

namespace Phrase

def number? : Phrase → Option Nat
  | .expr e => some e.num
  | .stmt _ => none

def stmt? : Phrase → Option Stmt
  | .stmt s => some s
  | .expr _ => none

/-- The statements inside a phrase with their places. Its own place is not known here. -/
def placed : Phrase → List (Nat × Stmt)
  | .stmt (.block _ first body) => Stmt.placedFrom first body
  | _ => []

theorem placed_stmt (i : Nat) (s : Stmt) : s.placed i = (i, s) :: (Phrase.stmt s).placed := by
  cases s <;> rfl

theorem placed_exprs (es : List Expr) : (es.map .expr).flatMap placed = [] := by
  rw [List.flatMap_map]
  exact List.flatMap_eq_nil_iff.mpr fun _ _ => rfl

theorem placed_of_not_block {s : Stmt} (h : ∀ span first body, s ≠ .block span first body) :
    (Phrase.stmt s).placed = [] ∧ s.children.flatMap placed = [] := by
  cases s with
  | expr span value => exact ⟨rfl, placed_exprs [value]⟩
  | declare span name assignable initial => exact ⟨rfl, placed_exprs initial.toList⟩
  | ret span value => exact ⟨rfl, placed_exprs value.toList⟩
  | block span first body => exact absurd rfl (h span first body)
  | empty span => exact ⟨rfl, rfl⟩

/-- The places of a block are the stretch of its own statements and the places inside these. -/
theorem placedFrom_perm (first : Nat) (body : List Stmt) :
    ((Stmt.placedFrom first body).map Prod.fst).Perm
      (List.range' first body.length ++ ((body.map .stmt).flatMap placed).map Prod.fst) := by
  induction body generalizing first with
  | nil => rfl
  | cons s rest ih =>
      simp only [Stmt.placedFrom, placed_stmt, List.cons_append, List.map_cons, List.map_append,
        List.length_cons, List.range'_succ, List.flatMap_cons]
      refine .cons first (((ih (first + 1)).append_left _).trans ?_)
      exact List.perm_append_comm_assoc ..

theorem mem_placedFrom {first : Nat} {body : List Stmt} {x : Nat × Stmt}
    (h : x ∈ Stmt.placedFrom first body) :
    (∃ i, x.1 = first + i ∧ body[i]? = some x.2) ∨ ∃ s ∈ body, x ∈ (Phrase.stmt s).placed := by
  induction body generalizing first with
  | nil => cases h
  | cons s rest ih =>
      rw [Stmt.placedFrom, placed_stmt] at h
      rcases List.mem_append.mp h with h | h
      · rcases List.mem_cons.mp h with rfl | h
        · exact .inl ⟨0, rfl, rfl⟩
        · exact .inr ⟨s, List.mem_cons_self, h⟩
      · rcases ih h with ⟨i, hi, hget⟩ | ⟨c, hc, hx⟩
        · exact .inl ⟨i + 1, by omega, hget⟩
        · exact .inr ⟨c, List.mem_cons_of_mem _ hc, hx⟩

theorem placedFrom_snd {body : List Stmt} (first : Nat)
    (h : ∀ s ∈ body, (Phrase.stmt s).placed.map Prod.snd =
      ((Phrase.stmt s).children.flatMap all).filterMap stmt?) :
    (Stmt.placedFrom first body).map Prod.snd =
      ((body.map .stmt).flatMap all).filterMap stmt? := by
  induction body generalizing first with
  | nil => rfl
  | cons s rest ih =>
      obtain ⟨hs, hrest⟩ := List.forall_mem_cons.mp h
      rw [Stmt.placedFrom, placed_stmt, List.map_append, List.map_cons, hs, ih _ hrest,
        List.map_cons, List.flatMap_cons, List.filterMap_append, all_eq]
      rfl

theorem filterMap_stmt?_exprs (es : List Expr) :
    ((es.map .expr).flatMap all).filterMap stmt? = [] := by
  rw [flatMap_all_expr, List.filterMap_map]
  exact List.filterMap_eq_nil_iff.mpr fun _ _ => rfl

/-- With their places left out, the statements inside are those of the walk. -/
theorem placed_snd (s : Stmt) : (Phrase.stmt s).placed.map Prod.snd =
    ((Phrase.stmt s).children.flatMap all).filterMap stmt? := by
  induction s using Stmt.induct with
  | h s ih =>
      cases s with
      | expr span value => exact (filterMap_stmt?_exprs [value]).symm
      | declare span name assignable initial => exact (filterMap_stmt?_exprs initial.toList).symm
      | ret span value => exact (filterMap_stmt?_exprs value.toList).symm
      | empty span => rfl
      | block span first body =>
          exact placedFrom_snd first fun c hc => ih c (List.mem_map_of_mem hc)

theorem mem_all_of_placed {q : Phrase} {x : Nat × Stmt} (h : x ∈ q.placed) : .stmt x.2 ∈ q.all := by
  cases q with
  | expr e => cases h
  | stmt s =>
      have hmem := List.mem_map_of_mem (f := Prod.snd) h
      rw [placed_snd] at hmem
      obtain ⟨r, hr, hstmt⟩ := List.mem_filterMap.mp hmem
      cases r with
      | expr e => cases hstmt
      | stmt s' =>
          obtain rfl := Option.some.inj hstmt
          rw [all_eq]
          exact List.mem_cons_of_mem _ hr

/-- The rows of the statements inside a phrase stand at their places. -/
theorem row_of_placed {exprs : ExprTable} {stmts : StmtTable} {q : Phrase} {x : Nat × Stmt}
    (h : ∀ r ∈ q.all, r.Held exprs stmts) (hx : x ∈ q.placed) :
    stmts.rows[x.1]? = some x.2.row := by
  induction q using Phrase.induct with
  | h q ih =>
      rcases q with ⟨_ | _ | _ | ⟨span, first, body⟩ | _⟩ | _
      case stmt.block =>
        have hblock : stmts.Holds first body := h _ (mem_all_self _)
        rcases mem_placedFrom hx with ⟨i, hi, hget⟩ | ⟨c, hc, hx⟩
        · rw [hi]
          exact hblock.row hget
        · have hchild : .stmt c ∈ (Phrase.stmt (.block span first body)).children :=
            List.mem_map_of_mem hc
          exact ih _ hchild (fun r hr => h r (mem_all_iff.mpr (.inr ⟨_, hchild, hr⟩))) hx
      all_goals cases hx

end Phrase

/-! ### Who owns the rows of a list -/

def ExprForm.list? : ExprForm → Option Extent
  | .call _ args => some args
  | .array items => some items
  | _ => none

def ExprForm.object? : ExprForm → Option Extent
  | .object entries => some entries
  | _ => none

namespace ExprTable

/-- A place in a further table lies in the stretch of an expression. -/
def Owned (t : ExprTable) (stretch? : ExprForm → Option Extent) (i : Nat) : Prop :=
  ∃ row ∈ t.rows.toList, ∃ x, stretch? row.form = some x ∧ x.start ≤ i ∧ i < x.stop

variable {t t' : ExprTable} {stretch? : ExprForm → Option Extent} {e : Expr} {i : Nat}

theorem Owned.mono (h : t.Owned stretch? i) (hgrows : t.Grows t') : t'.Owned stretch? i := by
  obtain ⟨row, hrow, x, hx, hbounds⟩ := h
  exact ⟨row, hgrows.rows.subset hrow, x, hx, hbounds⟩

theorem owned_add {x : Extent} (hx : stretch? (t.form e).1 = some x) (hstart : x.start ≤ i)
    (hstop : i < x.stop) : (t.add e).Owned stretch? i :=
  ⟨⟨(t.form e).1, e.span⟩, by simp [rows_add], x, hx, hstart, hstop⟩

/-- Rows that are appended up to the limit lie in the stretch up to the new end. -/
theorem mem_upTo {size size' : Nat} (hstart : size ≤ i) (hstop : i < size')
    (hlimit : size' ≤ Span.limit) :
    (Extent.upTo (Extent.place size) size').start ≤ i ∧
      i < (Extent.upTo (Extent.place size) size').stop := by
  simp only [Extent.upTo, Extent.place, Extent.stop]
  omega

theorem list_owned (hlimit : (t.add e).lists.size ≤ Span.limit) (hstart : t.lists.size ≤ i)
    (hstop : i < (t.add e).lists.size) : (t.add e).Owned ExprForm.list? i := by
  cases e with
  | call | array =>
      obtain ⟨hle, hlt⟩ := mem_upTo hstart hstop hlimit
      exact owned_add rfl hle hlt
  | _ => exact absurd hstop (Nat.not_lt.mpr hstart)

theorem entry_owned (hlimit : (t.add e).entries.size ≤ Span.limit) (hstart : t.entries.size ≤ i)
    (hstop : i < (t.add e).entries.size) : (t.add e).Owned ExprForm.object? i := by
  cases e with
  | object =>
      obtain ⟨hle, hlt⟩ := mem_upTo hstart hstop hlimit
      exact owned_add rfl hle hlt
  | _ => exact absurd hstop (Nat.not_lt.mpr hstart)

end ExprTable

/-! ### What a step stores -/

namespace Parser

variable {s t u : State} {row ps qs : List Phrase} {k : Nat} {tokens : List Token}

theorem Completes.grows (h : Completes s row k t) :
    s.exprs.Grows t.exprs ∧ s.stmts.rows.toList <+: t.stmts.rows.toList := by
  induction h with
  | nil | names | take => exact ⟨.refl _, List.prefix_refl _⟩
  | append _ _ ihst ihtu => exact ⟨ihst.1.trans ihtu.1, ihst.2.trans ihtu.2⟩
  | expr _ _ _ ih => exact ⟨ih.1.trans (ExprTable.grows_add _ _), ih.2⟩
  | stmt _ _ _ ih | exprStmt _ _ ih => exact ih
  | block _ _ ih => exact ⟨ih.1, ih.2.trans (by simp [StmtTable.add])⟩

/-- What is stored is paid for with tokens: the row of an expression with the one that the
expression is charged with, a row of another table with the one of the phrase that it stands for. -/
theorem Completes.sizes (h : Completes s row k t) :
    t.exprs.rows.size + k + t.left ≤ s.exprs.rows.size + s.left ∧
    t.exprs.lists.size + row.length + k + t.left ≤ s.exprs.lists.size + s.left ∧
    t.exprs.entries.size + row.length + k + t.left ≤ s.exprs.entries.size + s.left ∧
    t.stmts.rows.size + row.length + k + t.left ≤ s.stmts.rows.size + s.left := by
  induction h with
  | nil s => simp
  | names s names => simp [State.left]
  | @take s h =>
      have := (s.take h).shorter
      have hexprs : (s.take h).state.exprs = s.exprs := rfl
      have hstmts : (s.take h).state.stmts = s.stmts := rfl
      rw [hexprs, hstmts, List.length_nil]
      omega
  | append _ _ ihst ihtu =>
      rw [List.length_append]
      omega
  | @expr s t k e _ _ _ ih =>
      have hadd := ExprTable.size_add t.exprs e
      simp only [List.length_map, List.length_singleton, State.left] at ih ⊢
      omega
  | stmt _ _ _ ih | exprStmt _ _ ih =>
      simp only [List.length_singleton] at ih ⊢
      omega
  | @block s t k body span _ _ ih =>
      simp only [List.length_map, List.length_singleton, State.left, StmtTable.add,
        Extent.size_appendList] at ih ⊢
      omega

/-- No table has outgrown the places. -/
structure State.Fits (s : State) : Prop where
  exprs : s.exprs.rows.size ≤ Span.limit
  lists : s.exprs.lists.size ≤ Span.limit
  entries : s.exprs.entries.size ≤ Span.limit
  stmts : s.stmts.rows.size ≤ Span.limit

theorem State.Fits.of_grows (h : t.Fits) (hexprs : s.exprs.Grows t.exprs)
    (hstmts : s.stmts.rows.toList <+: t.stmts.rows.toList) : s.Fits :=
  ⟨(size_mono hexprs.rows).trans h.exprs, (size_mono hexprs.lists).trans h.lists,
    (size_mono hexprs.entries).trans h.entries, (size_mono hstmts).trans h.stmts⟩

/-- The rows that are new in `t` belong to the phrases of `row`, each to one. -/
structure Stores (s : State) (row : List Phrase) (t : State) : Prop where
  held : ∀ q ∈ row, ∀ r ∈ q.all, r.Held t.exprs t.stmts
  numbers : ((row.flatMap Phrase.all).filterMap Phrase.number?).Perm
    (List.Ico s.exprs.rows.size t.exprs.rows.size)
  places : ((row.flatMap Phrase.placed).map Prod.fst).Perm
    (List.Ico s.stmts.rows.size t.stmts.rows.size)
  lists : ∀ i, s.exprs.lists.size ≤ i → i < t.exprs.lists.size → t.exprs.Owned ExprForm.list? i
  entries : ∀ i, s.exprs.entries.size ≤ i → i < t.exprs.entries.size →
    t.exprs.Owned ExprForm.object? i

theorem forall_between {P : Nat → Prop} {a b c : Nat} (hab : ∀ i, a ≤ i → i < b → P i)
    (hbc : ∀ i, b ≤ i → i < c → P i) : ∀ i, a ≤ i → i < c → P i := by
  intro i hle hlt
  rcases Nat.lt_or_ge i b with hi | hi
  · exact hab i hle hi
  · exact hbc i hi hlt

theorem Stores.same (hexprs : t.exprs = s.exprs) (hstmts : t.stmts = s.stmts) : Stores s [] t := by
  refine ⟨by simp, by simp [hexprs], by simp [hstmts], fun i hle hlt => ?_, fun i hle hlt => ?_⟩
  · exact absurd (hexprs ▸ hlt) (Nat.not_lt.mpr hle)
  · exact absurd (hexprs ▸ hlt) (Nat.not_lt.mpr hle)

theorem Stores.append {j : Nat} (hp : Stores s ps t) (hq : Stores t qs u)
    (hst : Completes s ps j t) (htu : Completes t qs k u) : Stores s (ps ++ qs) u := by
  obtain ⟨hexprs, hstmts⟩ := htu.grows
  obtain ⟨hexprs', hstmts'⟩ := hst.grows
  constructor
  · refine List.forall_mem_append.mpr ⟨fun q hmem r hr => ?_, hq.held⟩
    exact (hp.held q hmem r hr).mono hexprs hstmts
  · rw [List.flatMap_append, List.filterMap_append,
      ← List.Ico.append_consecutive (size_mono hexprs'.rows) (size_mono hexprs.rows)]
    exact hp.numbers.append hq.numbers
  · rw [List.flatMap_append, List.map_append,
      ← List.Ico.append_consecutive (size_mono hstmts') (size_mono hstmts)]
    exact hp.places.append hq.places
  · exact forall_between (fun i hle hlt => (hp.lists i hle hlt).mono hexprs) hq.lists
  · exact forall_between (fun i hle hlt => (hp.entries i hle hlt).mono hexprs) hq.entries

theorem Stores.expr {e : Expr} (h : Stores s (e.children.map .expr) t)
    (hgrows : s.exprs.Grows t.exprs) (hnum : e.num = t.exprs.next)
    (hfits : ({ t with exprs := t.exprs.add e } : State).Fits) :
    Stores s [.expr e] { t with exprs := t.exprs.add e } := by
  have hsize : t.exprs.rows.size < (t.exprs.add e).rows.size := by simp [ExprTable.rows_add]
  have hnum : e.num = t.exprs.rows.size :=
    hnum.trans (Nat.min_eq_left (hsize.le.trans hfits.exprs))
  have hless : ∀ c ∈ e.children, c.num < e.num := by
    intro c hc
    have hmem : c.num ∈ ((e.children.map .expr).flatMap Phrase.all).filterMap Phrase.number? :=
      List.mem_filterMap.mpr ⟨.expr c, List.mem_flatMap.mpr
        ⟨.expr c, List.mem_map_of_mem hc, Phrase.mem_all_self _⟩, rfl⟩
    rw [hnum]
    exact (List.Ico.mem.mp (h.numbers.mem_iff.mp hmem)).2
  have hadd := ExprTable.grows_add t.exprs e
  constructor
  · intro q hq r hr
    obtain rfl := List.mem_singleton.mp hq
    rcases Phrase.mem_all_iff.mp hr with rfl | ⟨c, hc, hr⟩
    · exact ExprTable.holds_add hnum hless hfits.lists hfits.entries
    · exact (h.held c hc r hr).mono hadd (List.prefix_refl _)
  · have hrows : (t.exprs.add e).rows.size = t.exprs.rows.size + 1 := by simp [ExprTable.rows_add]
    have hself : Phrase.number? (.expr e) = some t.exprs.rows.size := congrArg some hnum
    rw [List.flatMap_singleton, Phrase.all_eq, List.filterMap_cons_some hself, hrows,
      List.Ico.succ_top (size_mono hgrows.rows)]
    exact (h.numbers.cons _).trans (List.perm_append_singleton ..).symm
  · have hplaces := h.places
    rwa [Phrase.placed_exprs] at hplaces
  · exact forall_between (fun i hle hlt => (h.lists i hle hlt).mono hadd)
      fun i hle hlt => ExprTable.list_owned hfits.lists hle hlt
  · exact forall_between (fun i hle hlt => (h.entries i hle hlt).mono hadd)
      fun i hle hlt => ExprTable.entry_owned hfits.entries hle hlt

theorem Stores.stmt {st : Stmt} (h : Stores s st.children t)
    (hblock : ∀ span first body, st ≠ .block span first body) : Stores s [.stmt st] t := by
  obtain ⟨hplaced, hchildren⟩ := Phrase.placed_of_not_block hblock
  constructor
  · intro q hq r hr
    obtain rfl := List.mem_singleton.mp hq
    rcases Phrase.mem_all_iff.mp hr with rfl | ⟨c, hc, hr⟩
    · cases st with
      | block span first body => exact absurd rfl (hblock span first body)
      | _ => trivial
    · exact h.held c hc r hr
  · rw [List.flatMap_singleton, Phrase.all_eq]
    exact h.numbers
  · have hplaces := h.places
    rw [hchildren] at hplaces
    rwa [List.flatMap_singleton, hplaced]
  · exact h.lists
  · exact h.entries

theorem Stores.block {body : List Stmt} {span : Span} (h : Stores s (body.map .stmt) t)
    (hgrows : s.stmts.rows.toList <+: t.stmts.rows.toList)
    (hfits : ({ t with stmts := t.stmts.add body } : State).Fits) :
    Stores s [.stmt (.block span t.stmts.next body)] { t with stmts := t.stmts.add body } := by
  have hadd : (t.stmts.add body).rows.size = t.stmts.rows.size + body.length := by
    simp [StmtTable.add, Extent.size_appendList]
  have hlimit : t.stmts.rows.size + body.length ≤ Span.limit := hadd ▸ hfits.stmts
  have hnext : t.stmts.next = t.stmts.rows.size := by
    simp only [StmtTable.next, Extent.place]
    omega
  have hrows : t.stmts.rows.toList <+: (t.stmts.add body).rows.toList := by simp [StmtTable.add]
  constructor
  · intro q hq r hr
    obtain rfl := List.mem_singleton.mp hq
    rcases Phrase.mem_all_iff.mp hr with rfl | ⟨c, hc, hr⟩
    · refine ⟨Extent.rows?_eq_some_iff.mpr ⟨t.stmts.rows.toList, [], ?_, ?_, ?_⟩, ?_, ?_⟩
      · simp [StmtTable.add]
      · exact hnext.symm
      · exact List.length_map ..
      · intro span' first' body' hmem
        have hinner : t.stmts.Holds first' body' :=
          h.held _ (List.mem_map_of_mem hmem) _ (Phrase.mem_all_self _)
        exact hnext ▸ hinner.stop_le
      · exact hnext ▸ hlimit
    · exact (h.held c hc r hr).mono (.refl _) hrows
  · rw [List.flatMap_singleton, Phrase.all_eq]
    exact h.numbers
  · rw [List.flatMap_singleton, hadd, ← List.Ico.append_consecutive (size_mono hgrows)
      (Nat.le_add_right _ _), hnext]
    have hstretch : List.range' t.stmts.rows.size body.length =
        List.Ico t.stmts.rows.size (t.stmts.rows.size + body.length) := by
      rw [List.Ico, Nat.add_sub_cancel_left]
    refine (Phrase.placedFrom_perm _ _).trans (List.perm_append_comm.trans ?_)
    exact hstretch ▸ h.places.append_right _
  · exact h.lists
  · exact h.entries

/-- Whatever is completed is stored. -/
theorem Completes.stores (h : Completes s row k t) (hfits : t.Fits) : Stores s row t := by
  induction h with
  | nil | names | take => exact .same rfl rfl
  | append hst htu ihst ihtu =>
      have hgrows := htu.grows
      exact (ihst (hfits.of_grows hgrows.1 hgrows.2)).append (ihtu hfits) hst htu
  | @expr s t k e hbuilt _ hnum ih =>
      have ht : t.Fits := hfits.of_grows (ExprTable.grows_add t.exprs e) (List.prefix_refl _)
      exact (ih ht).expr hbuilt.grows.1 hnum hfits
  | stmt _ _ hblock ih => exact (ih hfits).stmt hblock
  | exprStmt _ _ ih => exact (ih hfits).stmt (by simp)
  | @block s t k body span hbuilt _ ih =>
      have ht : t.Fits := hfits.of_grows (.refl _) (by simp [StmtTable.add])
      exact (ih ht).block hbuilt.grows.2 hfits

end Parser

end PathCopy
