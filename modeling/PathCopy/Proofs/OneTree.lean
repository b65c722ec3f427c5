import PathCopy.Proofs.Nesting
import PathCopy.Proofs.Storing

/-!
The tables of a procedure hold one tree, its body: every row belongs to one phrase of the body, and
following numbers and stretches from the body leads to each row once.
-/

namespace PathCopy

def StmtForm.parts : StmtForm → List Nat
  | .expr value => [value]
  | .declare _ _ initial => initial.toList
  | .ret value => value.toList
  | .block _ | .empty => []

theorem Stmt.expr_of_parts (s : Stmt) {m : Nat} (h : m ∈ s.row.form.parts) :
    ∃ e, .expr e ∈ s.children ∧ e.num = m := by
  cases s with
  | expr span value => exact ⟨value, List.mem_cons_self, (List.mem_singleton.mp h).symm⟩
  | declare span name assignable initial =>
      obtain ⟨e, rfl, rfl⟩ := Option.map_eq_some_iff.mp (Option.mem_toList.mp h)
      exact ⟨e, List.mem_cons_self, rfl⟩
  | ret span value =>
      obtain ⟨e, rfl, rfl⟩ := Option.map_eq_some_iff.mp (Option.mem_toList.mp h)
      exact ⟨e, List.mem_cons_self, rfl⟩
  | block | empty => cases h

/-- The stretch of a body that is a block. -/
def ProcedureBody.extent? : ProcedureBody → Option Extent
  | .expr _ => none
  | .block first body => some (.upTo first (first + body.length))

namespace Procedure

/-- The body, read from the tables from its number or its stretch on. -/
def readBody? (p : Procedure) : Option ProcedureBody :=
  match p.body with
  | .expr value => (p.exprs.expr? value.num).map .expr
  | .block first body =>
    (StmtTable.stmts? p.exprs p.stmts (.upTo first (first + body.length))).map (.block first)

/-- The stretches of statements: that of the body and those of the blocks inside. -/
def IsBlock (p : Procedure) (x : Extent) : Prop :=
  p.body.extent? = some x ∨ ∃ row ∈ p.stmts.rows.toList, row.form = .block x

/-- The tables hold one tree, and the body is this tree. -/
structure OneTree (p : Procedure) : Prop where
  /-- The stretch of an expression lies in its table, and everything inside it comes earlier. -/
  parts : ∀ n row, p.exprs.rows[n]? = some row →
    ∃ parts, p.exprs.parts? row.form = some parts ∧ ∀ m ∈ parts, m < n
  /-- A number in a list is inside an expression, and so is the one in an entry. -/
  lists : ∀ i < p.exprs.lists.size, p.exprs.Owned ExprForm.list? i
  entries : ∀ i < p.exprs.entries.size, p.exprs.Owned ExprForm.object? i
  /-- A statement has numbers of expressions that there are. -/
  values : ∀ row ∈ p.stmts.rows.toList, ∀ m ∈ row.form.parts, m < p.exprCount
  /-- The stretch of a block lies in the table of statements. -/
  blocks : ∀ x, p.IsBlock x → x.stop ≤ p.stmtCount
  /-- A block is stored before the block that it stands in. -/
  inner : ∀ x, p.IsBlock x → ∀ i row y, x.start ≤ i → i < x.stop →
    p.stmts.rows[i]? = some row → row.form = .block y → y.stop ≤ x.start
  /-- Following the tables ends, and leads to the body. -/
  read : p.readBody? = some p.body
  /-- The walk comes to every expression once. -/
  numbers : (p.phrases.filterMap Phrase.number?).Perm (List.range p.exprCount)
  /-- The statements of the walk stand at their places. -/
  shown : p.body.placed.map Prod.snd = p.phrases.filterMap Phrase.stmt? ∧
    ∀ x ∈ p.body.placed, p.stmts.rows[x.1]? = some x.2.row
  /-- The walk comes to every statement once. -/
  places : (p.body.placed.map Prod.fst).Perm (List.range p.stmtCount)

/-- The tables hold the phrase that the body is and everything inside it, and nothing else. -/
structure Stored (p : Procedure) (root : Phrase) : Prop where
  isRoot : Parser.IsRoot root p.body
  held : ∀ q ∈ root.all, q.Held p.exprs p.stmts
  numbers : (root.all.filterMap Phrase.number?).Perm (List.range p.exprCount)
  places : (root.placed.map Prod.fst).Perm (List.range p.stmtCount)
  lists : ∀ i < p.exprs.lists.size, p.exprs.Owned ExprForm.list? i
  entries : ∀ i < p.exprs.entries.size, p.exprs.Owned ExprForm.object? i

namespace Stored

variable {p : Procedure} {root : Phrase}

/-- The walk of the body is that of its phrase, without the phrase of a block itself. -/
theorem phrases (h : p.Stored root) :
    p.phrases.filterMap Phrase.number? = root.all.filterMap Phrase.number? ∧
      p.body.placed = root.placed ∧
      root.placed.map Prod.snd = p.phrases.filterMap Phrase.stmt? := by
  have hroot := h.isRoot
  rw [Procedure.phrases, ProcedureBody.phrases_eq]
  cases hbody : p.body with
  | expr value =>
      rw [hbody] at hroot
      obtain rfl := hroot
      have hwalk : (ProcedureBody.expr value).roots.flatMap Phrase.all = (Phrase.expr value).all :=
        List.flatMap_singleton ..
      exact ⟨by rw [hwalk], rfl, (Phrase.filterMap_stmt?_exprs [value]).symm⟩
  | block first body =>
      rw [hbody] at hroot
      obtain ⟨span, rfl⟩ := hroot
      refine ⟨?_, rfl, Phrase.placed_snd _⟩
      rw [Phrase.all_eq]
      rfl

theorem expr_of_lt (h : p.Stored root) {n : Nat} (hn : n < p.exprCount) :
    ∃ e, .expr e ∈ root.all ∧ e.num = n := by
  obtain ⟨q, hq, hnum⟩ := List.mem_filterMap.mp (h.numbers.mem_iff.mpr (List.mem_range.mpr hn))
  cases q with
  | expr e => exact ⟨e, hq, Option.some.inj hnum⟩
  | stmt s => cases hnum

theorem num_lt (h : p.Stored root) {e : Expr} (he : .expr e ∈ root.all) : e.num < p.exprCount :=
  List.mem_range.mp (h.numbers.mem_iff.mp (List.mem_filterMap.mpr ⟨_, he, rfl⟩))

theorem stmt_of_row (h : p.Stored root) {i : Nat} {row : StmtRow}
    (hrow : p.stmts.rows[i]? = some row) : ∃ s, .stmt s ∈ root.all ∧ s.row = row := by
  have hi : i < p.stmtCount := (Array.getElem?_eq_some_iff.mp hrow).1
  obtain ⟨x, hx, rfl⟩ := List.mem_map.mp (h.places.mem_iff.mpr (List.mem_range.mpr hi))
  refine ⟨x.2, Phrase.mem_all_of_placed hx, ?_⟩
  exact Option.some.inj ((Phrase.row_of_placed h.held hx).symm.trans hrow)

theorem block (h : p.Stored root) {x : Extent} (hx : p.IsBlock x) :
    ∃ first body, x = ⟨first, body.length⟩ ∧ p.stmts.Holds first body := by
  rcases hx with hx | ⟨row, hrow, hx⟩
  · have hroot := h.isRoot
    cases hbody : p.body with
    | expr value =>
        rw [hbody] at hx
        cases hx
    | block first body =>
        rw [hbody] at hroot hx
        obtain ⟨span, rfl⟩ := hroot
        have hheld : p.stmts.Holds first body := h.held _ (Phrase.mem_all_self _)
        exact ⟨first, body, (Option.some.inj hx).symm.trans hheld.upTo_eq, hheld⟩
  · obtain ⟨i, hi⟩ := List.mem_iff_getElem?.mp hrow
    rw [Array.getElem?_toList] at hi
    obtain ⟨s, hs, rfl⟩ := h.stmt_of_row hi
    cases s with
    | block span first body =>
        have hheld : p.stmts.Holds first body := h.held _ hs
        exact ⟨first, body, (StmtForm.block.inj hx).symm.trans hheld.upTo_eq, hheld⟩
    | _ => cases hx

theorem values (h : p.Stored root) {row : StmtRow} (hrow : row ∈ p.stmts.rows.toList) {m : Nat}
    (hm : m ∈ row.form.parts) : m < p.exprCount := by
  obtain ⟨i, hi⟩ := List.mem_iff_getElem?.mp hrow
  rw [Array.getElem?_toList] at hi
  obtain ⟨s, hs, rfl⟩ := h.stmt_of_row hi
  obtain ⟨e, he, rfl⟩ := s.expr_of_parts hm
  exact h.num_lt (Phrase.mem_all_of_child hs he)

theorem read (h : p.Stored root) : p.readBody? = some p.body := by
  have hroot := h.isRoot
  unfold readBody?
  cases hbody : p.body with
  | expr value =>
      rw [hbody] at hroot
      obtain rfl := hroot
      exact congrArg (Option.map ProcedureBody.expr) (expr?_of_held h.held)
  | block first body =>
      rw [hbody] at hroot
      obtain ⟨span, rfl⟩ := hroot
      have hheld : p.stmts.Holds first body := h.held _ (Phrase.mem_all_self _)
      dsimp only
      rw [hheld.upTo_eq, stmts?_of_held _ span first body rfl h.held]
      rfl

theorem oneTree (h : p.Stored root) : p.OneTree where
  parts n row hrow := by
    obtain ⟨e, he, rfl⟩ := h.expr_of_lt (Array.getElem?_eq_some_iff.mp hrow).1
    obtain ⟨form, hform, hparts, hless, -⟩ : p.exprs.Holds e := h.held _ he
    obtain rfl := Option.some.inj (hform.symm.trans hrow)
    exact ⟨_, hparts, List.forall_mem_map.mpr hless⟩
  lists := h.lists
  entries := h.entries
  values row hrow m hm := h.values hrow hm
  blocks x hx := by
    obtain ⟨first, body, rfl, hheld⟩ := h.block hx
    exact hheld.stop_le
  inner x hx i row y hstart hstop hrow hy := by
    obtain ⟨first, body, rfl, hheld⟩ := h.block hx
    obtain ⟨j, rfl⟩ := Nat.exists_eq_add_of_le hstart
    have hj : j < body.length := by
      simp only [Extent.stop] at hstop
      omega
    have hget : p.stmts.rows[first + j]? = some body[j].row :=
      hheld.row (List.getElem?_eq_getElem hj)
    obtain rfl := Option.some.inj (hget.symm.trans hrow)
    -- Only a block has statements inside.
    cases hs : body[j] with
    | block span first' body' =>
        have hmem : .block span first' body' ∈ body := hs ▸ List.getElem_mem hj
        rw [hs] at hy
        obtain rfl := StmtForm.block.inj hy
        have hle := hheld.blocks span first' body' hmem
        simp only [Extent.stop, Extent.upTo, Extent.place]
        omega
    | _ =>
        rw [hs] at hy
        cases hy
  read := h.read
  numbers := h.phrases.1 ▸ h.numbers
  shown := by
    obtain ⟨-, hplaced, hwalk⟩ := h.phrases
    rw [hplaced]
    exact ⟨hwalk, fun x hx => Phrase.row_of_placed h.held hx⟩
  places := h.phrases.2.1 ▸ h.places

end Stored

end Procedure

theorem Parser.Between.left_pos {s t : State} {tokens words : List Token} {stop : Span}
    (h : Between s t tokens) (hend : s.cursor.ahead = words ++ [⟨.endOfInput, stop⟩]) :
    0 < t.left := by
  refine List.length_pos_iff.mpr fun hnil => ?_
  have hahead := hend.symm.trans h.ahead
  rw [hnil, List.append_nil] at hahead
  have hmem : ⟨.endOfInput, stop⟩ ∈ tokens :=
    hahead ▸ List.mem_append_right _ (List.mem_singleton_self _)
  exact h.words _ hmem rfl

/-- The tables of a procedure hold what its body says, if there are no more words than places. -/
theorem Parser.procedure_stored {source : List Char} {s : State} {p : Procedure}
    {words : List Token} {stop : Span} (hp : Parser.procedure source s = .ok p)
    (hexprs : s.exprs = 0) (hstmts : s.stmts = 0)
    (hend : s.cursor.ahead = words ++ [⟨.endOfInput, stop⟩])
    (hlength : words.length ≤ Span.limit) : ∃ root, p.Stored root := by
  obtain ⟨u, ⟨root, hroot, k, hbuilt⟩, hpexprs, hpstmts, -⟩ := procedure_builds hp
  obtain ⟨tokens, hbetween, -⟩ := hbuilt.between
  have hpos := hbetween.left_pos hend
  have hleft : s.left = words.length + 1 := by
    rw [State.left, Cursor.left, hend, List.length_append, List.length_singleton]
  have hzero : s.exprs.rows.size = 0 ∧ s.exprs.lists.size = 0 ∧ s.exprs.entries.size = 0 ∧
      s.stmts.rows.size = 0 := by
    rw [hexprs, hstmts]
    exact ⟨rfl, rfl, rfl, rfl⟩
  have hsizes := hbuilt.sizes
  have hfits : u.Fits := by
    constructor <;> omega
  have hstores := hbuilt.stores hfits
  have hnumbers := hstores.numbers
  have hplaces := hstores.places
  rw [hzero.1, List.Ico.zero_bot, List.flatMap_singleton] at hnumbers
  rw [hzero.2.2.2, List.Ico.zero_bot, List.flatMap_singleton] at hplaces
  refine ⟨root, hroot, ?_, ?_, ?_, ?_, ?_⟩
  · rw [hpexprs, hpstmts]
    exact hstores.held root (List.mem_singleton_self root)
  · rwa [Procedure.exprCount, hpexprs]
  · rwa [Procedure.stmtCount, hpstmts]
  · intro i hi
    rw [hpexprs] at hi ⊢
    exact hstores.lists i (by omega) hi
  · intro i hi
    rw [hpexprs] at hi ⊢
    exact hstores.entries i (by omega) hi

/-- Every word takes up a byte of the source. -/
theorem Token.length_of_ofSource {source : String} {names names' : NameTable} {tokens : List Token}
    (h : Token.ofSource source names = .ok (tokens, names')) :
    tokens.length ≤ utf8Length source.toList + 1 := by
  obtain ⟨lexemes, hscan, hresult⟩ := except_map_ok h
  obtain ⟨rfl, -⟩ := Prod.mk.inj hresult
  obtain ⟨q, hcuts⟩ := Lexeme.scan_ok hscan
  have hstop := hcuts.ordered.2.1
  have hlexemes := hcuts.length_le
  have hspans := congrArg List.length (ofLexemes_spans names lexemes)
  simp only [List.length_map, List.length_append, List.length_singleton, utf8Length] at *
  omega

/-- The tables of a procedure that is read from a source hold one tree. -/
theorem Procedure.parse_oneTree {source : String} {p : Procedure}
    (hp : Procedure.parse source = .ok p) (hshort : utf8Length source.toList < 2 ^ 32) :
    p.OneTree := by
  unfold Procedure.parse at hp
  split at hp
  · cases hp
  · rename_i tokens names htokens
    have hlength := Token.length_of_ofSource htokens
    obtain ⟨-, words, stop, rfl, -⟩ := Token.ofSource_ordered htokens
    rw [List.length_append, List.length_singleton] at hlength
    have hlimit : words.length ≤ Span.limit := by
      simp only [Span.limit, UInt32.size]
      omega
    obtain ⟨root, hstored⟩ := Parser.procedure_stored hp rfl rfl rfl hlimit
    exact hstored.oneTree

theorem Procedure.parse_oneTree_blocks :
    ∃ p, Procedure.parse "s => { { s.a = [1]; } f(s); }" = .ok p ∧
      utf8Length "s => { { s.a = [1]; } f(s); }".toList < 2 ^ 32 ∧ p.OneTree := by
  have hsome : (Procedure.parse "s => { { s.a = [1]; } f(s); }").toOption.isSome = true := by
    decide +kernel
  obtain ⟨p, hp⟩ := Option.isSome_iff_exists.mp hsome
  have hp := eq_ok_of_mem_toOption hp
  have hshort : utf8Length "s => { { s.a = [1]; } f(s); }".toList < 2 ^ 32 := by decide
  exact ⟨p, hp, hshort, Procedure.parse_oneTree hp hshort⟩

end PathCopy
