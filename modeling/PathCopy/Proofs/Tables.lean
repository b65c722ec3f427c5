import PathCopy.Procedure.Basic
import PathCopy.Proofs.Phrases

/-!
Reading phrases back from the tables that store them. The readers follow numbers and stretches and
give up where one leaves its table or does not lead backwards, so they end on every table; what they
return is the phrase itself if the tables hold it.
-/

namespace PathCopy

namespace Extent

variable {α : Type} {x : Extent} {table table' : Array α} {rows : List α}

theorem rows?_eq_some_iff : x.rows? table = some rows ↔ ∃ before after,
    table.toList = before ++ rows ++ after ∧ before.length = x.start ∧ rows.length = x.length := by
  have hextract : (table.extract x.start x.stop).toList =
      (table.toList.drop x.start).take x.length := by
    rw [Array.toList_extract, List.extract_eq_take_drop, stop, Nat.add_sub_cancel_left]
  have hstop : x.stop ≤ table.size ↔ x.start + x.length ≤ table.toList.length := Iff.rfl
  rw [rows?, Option.ite_none_right_eq_some, hextract, Option.some_inj, hstop]
  constructor
  · rintro ⟨hle, rfl⟩
    refine ⟨table.toList.take x.start, (table.toList.drop x.start).drop x.length, ?_, ?_, ?_⟩
    · rw [List.append_assoc, List.take_append_drop, List.take_append_drop]
    · rw [List.length_take]
      omega
    · rw [List.length_take, List.length_drop]
      omega
  · rintro ⟨before, after, htable, hstart, hlength⟩
    rw [htable, ← hstart, ← hlength, List.append_assoc, List.drop_left, List.take_left]
    simp only [List.length_append, and_true]
    omega

/-- The rows of a stretch stay where they are in a table that grows. -/
theorem rows?_mono (h : x.rows? table = some rows) (hgrows : table.toList <+: table'.toList) :
    x.rows? table' = some rows := by
  obtain ⟨before, after, htable, hstart, hlength⟩ := rows?_eq_some_iff.mp h
  obtain ⟨more, hmore⟩ := hgrows
  refine rows?_eq_some_iff.mpr ⟨before, after ++ more, ?_, hstart, hlength⟩
  rw [← hmore, htable, List.append_assoc]

theorem getElem?_of_rows? {i : Nat} {row : α} (h : x.rows? table = some rows)
    (hrow : rows[i]? = some row) : table[x.start + i]? = some row := by
  obtain ⟨before, after, htable, hstart, -⟩ := rows?_eq_some_iff.mp h
  have hlt := (List.getElem?_eq_some_iff.mp hrow).1
  rw [← Array.getElem?_toList, htable, List.append_assoc, ← hstart,
    List.getElem?_append_right (Nat.le_add_right ..), Nat.add_sub_cancel_left,
    List.getElem?_append_left hlt, hrow]

theorem size_appendList (table : Array α) (rows : List α) :
    (table ++ rows).size = table.size + rows.length := by
  rw [← Array.length_toList, Array.toList_appendList, List.length_append, Array.length_toList]

/-- Rows that are appended are the rows of the stretch up to the new end. -/
theorem rows?_upTo (h : (table ++ rows).size ≤ Span.limit) :
    (Extent.upTo (place table.size) (table ++ rows).size).rows? (table ++ rows) = some rows := by
  refine rows?_eq_some_iff.mpr ⟨table.toList, [], by simp, ?_⟩
  rw [size_appendList] at h
  simp only [upTo, place, size_appendList, Array.length_toList]
  omega

end Extent

theorem getElem?_mono {α : Type} {table table' : Array α} {i : Nat} {row : α}
    (h : table[i]? = some row) (hgrows : table.toList <+: table'.toList) :
    table'[i]? = some row := by
  obtain ⟨more, hmore⟩ := hgrows
  rw [← Array.getElem?_toList] at h ⊢
  rw [← hmore]
  exact List.getElem?_append_left (List.getElem?_eq_some_iff.mp h).1 ▸ h

theorem size_mono {α : Type} {table table' : Array α} (hgrows : table.toList <+: table'.toList) :
    table.size ≤ table'.size :=
  hgrows.length_le

theorem mapM_attach {α β : Type} (f : α → Option β) (xs : List α) :
    (xs.attach.mapM fun x => f x.1) = xs.mapM f := by
  change xs.attach.mapM (f ∘ Subtype.val) = _
  rw [← List.mapM_map, List.attach_map_subtype_val]

theorem mapM_map_of_forall {α β : Type} {f : α → Option β} {g : β → α} {ys : List β}
    (h : ∀ y ∈ ys, f (g y) = some y) : (ys.map g).mapM f = some ys := by
  induction ys with
  | nil => rfl
  | cons y ys ih =>
      obtain ⟨hy, hys⟩ := List.forall_mem_cons.mp h
      rw [List.map_cons, List.mapM_cons, hy, ih hys]
      rfl

namespace ExprTable

/-- The numbers of the expressions inside a form, from left to right; nothing if its stretch leaves
the table. -/
def parts? (t : ExprTable) : ExprForm → Option (List Nat)
  | .number _ | .string _ | .bool _ | .null | .undefined | .ident _ => some []
  | .member base _ => some [base]
  | .index base key => some [base, key]
  | .call callee args => (args.rows? t.lists).map (callee :: ·)
  | .assign _ target value => some [target, value]
  | .step _ _ target => some [target]
  | .binary _ left right => some [left, right]
  | .unary _ operand => some [operand]
  | .array items => items.rows? t.lists
  | .object entries => (entries.rows? t.entries).map (·.map EntryRow.value)

/-- The expression of a row, from the expressions inside it. -/
def assemble (t : ExprTable) (site : Site) : ExprForm → List Expr → Option Expr
  | .number bits, [] => some (.number site bits)
  | .string text, [] => some (.string site text)
  | .bool value, [] => some (.bool site value)
  | .null, [] => some (.null site)
  | .undefined, [] => some (.undefined site)
  | .ident name, [] => some (.ident site name)
  | .member _ property, [base] => some (.member site base property)
  | .index _ _, [base, key] => some (.index site base key)
  | .call _ _, callee :: args => some (.call site callee args)
  | .assign op _ _, [target, value] => some (.assign site op target value)
  | .step op fixity _, [target] => some (.step site op fixity target)
  | .binary op _ _, [left, right] => some (.binary site op left right)
  | .unary op _, [operand] => some (.unary site op operand)
  | .array _, items => some (.array site items)
  | .object entries, values => (entries.rows? t.entries).map fun rows =>
      .object site (rows.zipWith (fun row value => .entry row.key row.span value) values)
  | _, _ => none

def expr? (t : ExprTable) (n : Nat) : Option Expr :=
  match t.rows[n]? with
  | none => none
  | some row =>
    match t.parts? row.form with
    | none => none
    | some parts =>
      if h : ∀ m ∈ parts, m < n then
        (parts.attach.mapM fun m =>
          have := h m.1 m.2
          t.expr? m.1).bind (t.assemble ⟨row.span, n⟩ row.form)
      else none

/-- The table holds an expression: its row is what the expression is, with numbers of earlier rows
in place of the expressions inside it. -/
def Holds (t : ExprTable) (e : Expr) : Prop :=
  ∃ form, t.rows[e.num]? = some ⟨form, e.span⟩ ∧ t.parts? form = some (e.children.map Expr.num) ∧
    (∀ c ∈ e.children, c.num < e.num) ∧ t.assemble e.site form e.children = some e

/-- An expression is read back if the table holds it and everything inside it. -/
theorem expr?_of_holds {t : ExprTable} (e : Expr) (h : ∀ d ∈ e.nodes, t.Holds d) :
    t.expr? e.num = some e := by
  induction e using Expr.induct with
  | h e ih =>
      rw [Expr.nodes_eq] at h
      obtain ⟨⟨form, hrow, hparts, hless, hassemble⟩, hchildren⟩ := List.forall_mem_cons.mp h
      have hread : ∀ c ∈ e.children, t.expr? c.num = some c := fun c hc =>
        ih c hc fun d hd => hchildren d (List.mem_flatMap.mpr ⟨c, hc, hd⟩)
      have hless' : ∀ m ∈ e.children.map Expr.num, m < e.num := List.forall_mem_map.mpr hless
      rw [expr?, hrow]
      simp only [hparts, dif_pos hless', mapM_attach (fun m => t.expr? m), mapM_map_of_forall hread,
        Option.bind_some]
      exact hassemble

/-! ### Growth of the expression table -/

/-- Rows are only appended. -/
structure Grows (t t' : ExprTable) : Prop where
  rows : t.rows.toList <+: t'.rows.toList
  lists : t.lists.toList <+: t'.lists.toList
  entries : t.entries.toList <+: t'.entries.toList

variable {t t' t'' : ExprTable} {e : Expr}

theorem Grows.refl (t : ExprTable) : t.Grows t :=
  ⟨List.prefix_refl _, List.prefix_refl _, List.prefix_refl _⟩

theorem Grows.trans (h : t.Grows t') (h' : t'.Grows t'') : t.Grows t'' :=
  ⟨h.rows.trans h'.rows, h.lists.trans h'.lists, h.entries.trans h'.entries⟩

theorem parts?_mono {form : ExprForm} {parts : List Nat} (h : t.parts? form = some parts)
    (hgrows : t.Grows t') : t'.parts? form = some parts := by
  cases form with
  | call callee args =>
      obtain ⟨rows, hrows, rfl⟩ := Option.map_eq_some_iff.mp h
      exact Option.map_eq_some_iff.mpr ⟨rows, Extent.rows?_mono hrows hgrows.lists, rfl⟩
  | array items => exact Extent.rows?_mono h hgrows.lists
  | object entries =>
      obtain ⟨rows, hrows, rfl⟩ := Option.map_eq_some_iff.mp h
      exact Option.map_eq_some_iff.mpr ⟨rows, Extent.rows?_mono hrows hgrows.entries, rfl⟩
  | _ => exact h

theorem assemble_mono {site : Site} {form : ExprForm} {es : List Expr}
    (h : t.assemble site form es = some e) (hgrows : t.Grows t') :
    t'.assemble site form es = some e := by
  cases form with
  | object entries =>
      obtain ⟨rows, hrows, rfl⟩ := Option.map_eq_some_iff.mp h
      exact Option.map_eq_some_iff.mpr ⟨rows, Extent.rows?_mono hrows hgrows.entries, rfl⟩
  | _ => rcases es with _ | ⟨_, _ | ⟨_, _ | ⟨_, _⟩⟩⟩ <;> exact h

theorem Holds.mono (h : t.Holds e) (hgrows : t.Grows t') : t'.Holds e := by
  obtain ⟨form, hrow, hparts, hless, hassemble⟩ := h
  exact ⟨form, getElem?_mono hrow hgrows.rows, parts?_mono hparts hgrows, hless,
    assemble_mono hassemble hgrows⟩

theorem rows_form (t : ExprTable) (e : Expr) : (t.form e).2.rows = t.rows := by
  cases e <;> rfl

theorem rows_add (t : ExprTable) (e : Expr) :
    (t.add e).rows = t.rows.push ⟨(t.form e).1, e.span⟩ := by
  simp only [add, rows_form]

theorem grows_form (t : ExprTable) (e : Expr) : t.Grows (t.form e).2 := by
  refine ⟨rows_form t e ▸ List.prefix_refl _, ?_, ?_⟩ <;> cases e <;>
    simp [form, addList, addEntries]

theorem grows_add (t : ExprTable) (e : Expr) : t.Grows (t.add e) := by
  have h := grows_form t e
  exact ⟨by simp [rows_add], h.lists, h.entries⟩

/-- An expression adds one row, and no more to the lists than it has children. -/
theorem size_add (t : ExprTable) (e : Expr) : (t.add e).rows.size = t.rows.size + 1 ∧
    (t.add e).lists.size ≤ t.lists.size + e.children.length ∧
    (t.add e).entries.size ≤ t.entries.size + e.children.length := by
  refine ⟨by simp [rows_add], ?_, ?_⟩ <;> cases e <;>
    simp [add, form, addList, addEntries, Expr.children, Extent.size_appendList]

theorem form_holds (hlists : (t.form e).2.lists.size ≤ Span.limit)
    (hentries : (t.form e).2.entries.size ≤ Span.limit) :
    (t.form e).2.parts? (t.form e).1 = some (e.children.map Expr.num) ∧
      (t.form e).2.assemble e.site (t.form e).1 e.children = some e := by
  cases e with
  | call site callee args =>
      exact ⟨congrArg (Option.map (callee.num :: ·)) (Extent.rows?_upTo hlists), rfl⟩
  | array site items => exact ⟨Extent.rows?_upTo hlists, rfl⟩
  | object site entries =>
      have hrows := Extent.rows?_upTo hentries
      have hparts := congrArg (Option.map (List.map EntryRow.value)) hrows
      have hassemble := congrArg (Option.map fun rows => Expr.object site
        (rows.zipWith (fun row value => .entry row.key row.span value)
          (entries.map Property.value))) hrows
      refine ⟨hparts.trans ?_, hassemble.trans ?_⟩
      · simp [Expr.children, Property.row]
      · have hentry : ∀ p : Property, .entry p.key p.span p.value = p := by
          rintro ⟨_, _, _⟩
          rfl
        simp [List.zipWith_map, List.zipWith_self, Property.row, hentry]
  | _ => exact ⟨rfl, rfl⟩

/-- A stored expression is held if what is inside it has been stored. -/
theorem holds_add (hnum : e.num = t.rows.size) (hless : ∀ c ∈ e.children, c.num < e.num)
    (hlists : (t.add e).lists.size ≤ Span.limit) (hentries : (t.add e).entries.size ≤ Span.limit) :
    (t.add e).Holds e := by
  obtain ⟨hparts, hassemble⟩ := form_holds (t := t) (e := e) hlists hentries
  have hgrows : (t.form e).2.Grows (t.add e) :=
    ⟨by simp [rows_add, rows_form], List.prefix_refl _, List.prefix_refl _⟩
  refine ⟨(t.form e).1, ?_, parts?_mono hparts hgrows, hless, assemble_mono hassemble hgrows⟩
  rw [rows_add, hnum, Array.getElem?_push_size]

end ExprTable

/-! ### Statements -/

namespace StmtTable

/-- The statement of a row, where `block` reads the statements of a stretch. -/
def stmt? (exprs : ExprTable) (block : Extent → Option (List Stmt)) (row : StmtRow) : Option Stmt :=
  match row.form with
  | .expr value => (exprs.expr? value).map (.expr row.span)
  | .declare name assignable initial =>
    (initial.mapM exprs.expr?).map (.declare row.span name assignable)
  | .ret value => (value.mapM exprs.expr?).map (.ret row.span)
  | .block body => (block body).map (.block row.span body.start)
  | .empty => some (.empty row.span)

/-- The statements of a stretch, read from the table. A block inside it has to end before it. -/
def stmts? (exprs : ExprTable) (t : StmtTable) (x : Extent) : Option (List Stmt) :=
  match hrows : x.rows? t.rows with
  | none => none
  | some rows => rows.attach.mapM fun row =>
    stmt? exprs (fun y =>
      if h : y.stop ≤ x.start then
        have : y.stop < x.stop := by
          obtain ⟨_, _, -, -, hlength⟩ := Extent.rows?_eq_some_iff.mp hrows
          have := List.length_pos_of_mem row.2
          simp only [Extent.stop] at h ⊢
          omega
        stmts? exprs t y
      else none) row.1
termination_by x.stop

/-- The table holds the statements of a block from the place `first` on, and those of the blocks
inside it before. -/
structure Holds (t : StmtTable) (first : Nat) (body : List Stmt) : Prop where
  rows : (⟨first, body.length⟩ : Extent).rows? t.rows = some (body.map Stmt.row)
  blocks : ∀ span first' body', .block span first' body' ∈ body → first' + body'.length ≤ first
  short : first + body.length ≤ Span.limit

variable {t t' : StmtTable} {first : Nat} {body : List Stmt}

theorem Holds.mono (h : t.Holds first body) (hgrows : t.rows.toList <+: t'.rows.toList) :
    t'.Holds first body :=
  ⟨Extent.rows?_mono h.rows hgrows, h.blocks, h.short⟩

theorem Holds.stop_le (h : t.Holds first body) : first + body.length ≤ t.rows.size := by
  have hrows := h.rows
  rw [Extent.rows?, Option.ite_none_right_eq_some] at hrows
  exact hrows.1

/-- The stretch that a row gives for the block. -/
theorem Holds.upTo_eq (h : t.Holds first body) :
    Extent.upTo first (first + body.length) = ⟨first, body.length⟩ := by
  have := h.short
  simp only [Extent.upTo, Extent.place, Extent.mk.injEq, true_and]
  omega

theorem Holds.row {i : Nat} {s : Stmt} (h : t.Holds first body) (hs : body[i]? = some s) :
    t.rows[first + i]? = some s.row :=
  Extent.getElem?_of_rows? h.rows (by rw [List.getElem?_map, hs]; rfl)

end StmtTable

/-- The tables hold a phrase, in so far as it has rows of its own: an expression, or the statements
of a block. -/
def Phrase.Held (exprs : ExprTable) (stmts : StmtTable) : Phrase → Prop
  | .expr e => exprs.Holds e
  | .stmt (.block _ first body) => stmts.Holds first body
  | .stmt _ => True

theorem Phrase.Held.mono {exprs exprs' : ExprTable} {stmts stmts' : StmtTable} {q : Phrase}
    (h : q.Held exprs stmts) (hexprs : exprs.Grows exprs')
    (hstmts : stmts.rows.toList <+: stmts'.rows.toList) : q.Held exprs' stmts' := by
  cases q with
  | expr e => exact ExprTable.Holds.mono h hexprs
  | stmt s =>
      cases s with
      | block span first body => exact StmtTable.Holds.mono h hstmts
      | _ => trivial

section Reading

variable {exprs : ExprTable} {stmts : StmtTable}

theorem expr?_of_held {e : Expr} (h : ∀ q ∈ (Phrase.expr e).all, q.Held exprs stmts) :
    exprs.expr? e.num = some e :=
  ExprTable.expr?_of_holds e fun d hd => h (.expr d) (List.mem_map_of_mem hd)

theorem mapM_expr?_of_held {value : Option Expr}
    (h : ∀ c ∈ value.toList.map Phrase.expr, ∀ q ∈ c.all, q.Held exprs stmts) :
    (value.map Expr.num).mapM exprs.expr? = some value := by
  cases value with
  | none => rfl
  | some e =>
      have hread := expr?_of_held (h (.expr e) (by simp))
      simp [hread]

variable (stmts) in
/-- A statement is read back from its row if the tables hold everything inside it. -/
theorem stmt?_row {s : Stmt} {block : Extent → Option (List Stmt)}
    (h : ∀ c ∈ s.children, ∀ q ∈ c.all, q.Held exprs stmts)
    (hblock : ∀ span first body, s = .block span first body →
      block (.upTo first (first + body.length)) = some body) :
    StmtTable.stmt? exprs block s.row = some s := by
  cases s with
  | expr span value =>
      have hread := expr?_of_held (h (.expr value) List.mem_cons_self)
      simp [StmtTable.stmt?, Stmt.row, hread]
  | declare span name assignable initial =>
      have hread := mapM_expr?_of_held h
      simp [StmtTable.stmt?, Stmt.row, hread]
  | ret span value =>
      have hread := mapM_expr?_of_held h
      simp [StmtTable.stmt?, Stmt.row, hread]
  | block span first body =>
      exact congrArg (Option.map (Stmt.block span first)) (hblock span first body rfl)
  | empty span => rfl

/-- The statements of a block are read back if the tables hold the block and everything inside
it. -/
theorem stmts?_of_held (s : Stmt) : ∀ span first body, s = .block span first body →
    (∀ q ∈ (Phrase.stmt s).all, q.Held exprs stmts) →
    stmts.stmts? exprs ⟨first, body.length⟩ = some body := by
  induction s using Stmt.induct with
  | h s ih =>
      rintro span first body rfl h
      rw [Phrase.all_eq] at h
      obtain ⟨hblock, hinside⟩ := List.forall_mem_cons.mp h
      have hblock : stmts.Holds first body := hblock
      have hstmt : ∀ c ∈ body, ∀ q ∈ (Phrase.stmt c).all, q.Held exprs stmts := fun c hc q hq =>
        hinside q (List.mem_flatMap.mpr ⟨.stmt c, List.mem_map_of_mem hc, hq⟩)
      rw [StmtTable.stmts?]
      split
      · rename_i hnone
        rw [hblock.rows] at hnone
        cases hnone
      · rename_i rows hrows
        obtain rfl := Option.some.inj (hblock.rows.symm.trans hrows)
        have hattach := mapM_attach (StmtTable.stmt? exprs fun y =>
          if _h : y.stop ≤ first then stmts.stmts? exprs y else none) (body.map Stmt.row)
        refine hattach.trans (mapM_map_of_forall fun c hc => stmt?_row stmts ?_ ?_)
        · intro d hd q hq
          exact hstmt c hc q (Phrase.mem_all_iff.mpr (.inr ⟨d, hd, hq⟩))
        · rintro span' first' body' rfl
          have hle := hblock.blocks span' first' body' hc
          have hinner : stmts.Holds first' body' :=
            hstmt _ hc _ (Phrase.mem_all_self (.stmt (.block span' first' body')))
          rw [hinner.upTo_eq]
          exact (dif_pos hle).trans
            (ih _ (List.mem_map_of_mem hc) span' first' body' rfl (hstmt _ hc))

end Reading

end PathCopy
