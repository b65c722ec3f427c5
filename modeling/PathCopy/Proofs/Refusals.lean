import PathCopy.Proofs.Slices

/-!
Where the grammar refuses a text. A reader fails at the current token, or at something it has read
before; in a state all of whose tokens are slices of a text it fails at a slice. One lemma for each
reader, beside the one on what the reader completes when it succeeds.
-/

namespace PathCopy

/-- The spans of a phrase and of everything inside it are among `places`. -/
def Phrase.AllSpans (places : Span → Prop) (q : Phrase) : Prop := ∀ r ∈ q.all, places r.span

namespace Phrase.AllSpans

variable {places : Span → Prop} {q : Phrase}

theorem self (h : q.AllSpans places) : places q.span := h q q.mem_all_self

theorem child {c : Phrase} (h : q.AllSpans places) (hc : c ∈ q.children) : c.AllSpans places :=
  fun r hr => h r (Phrase.mem_all_iff.mpr (.inr ⟨c, hc, hr⟩))

theorem part {e c : Expr} (h : (Phrase.expr e).AllSpans places) (hc : c ∈ e.children) :
    (Phrase.expr c).AllSpans places :=
  h.child (List.mem_map_of_mem hc)

theorem mem {r : Phrase} (h : q.AllSpans places) (hr : r ∈ q.all) : r.AllSpans places := by
  induction q using Phrase.induct with
  | h q ih =>
      rcases Phrase.mem_all_iff.mp hr with rfl | ⟨c, hc, hr⟩
      · exact h
      · exact ih c hc (h.child hc) hr

theorem intro (hq : places q.span) (h : ∀ c ∈ q.children, c.AllSpans places) :
    q.AllSpans places := by
  intro r hr
  rcases Phrase.mem_all_iff.mp hr with rfl | ⟨c, hc, hr⟩
  · exact hq
  · exact h c hc r hr

end Phrase.AllSpans

namespace Parser

variable {text : List Char} {s t u : State} {row : List Phrase} {k : Nat} {α β : Type}

/-! ### States of which all tokens are slices -/

/-- All tokens around the position are slices of the text. -/
structure Located (text : List Char) (s : State) : Prop where
  behind : ∀ token ∈ s.cursor.behind, token.span.IsSlice text
  ahead : ∀ token ∈ s.cursor.ahead, token.span.IsSlice text

namespace Located

theorem current (h : Located text s) : s.current.span.IsSlice text := by
  obtain ⟨⟨behind, _ | ⟨token, rest⟩⟩, names, exprs, stmts⟩ := s
  · exact Span.isSlice_origin text
  · exact h.ahead token List.mem_cons_self

theorem previousSpan (h : Located text s) : s.previousSpan.IsSlice text := by
  obtain ⟨⟨_ | ⟨token, rest⟩, ahead⟩, names, exprs, stmts⟩ := s
  · exact Span.isSlice_origin text
  · exact h.behind token List.mem_cons_self

theorem between {tokens : List Token} (h : Located text s) (hst : Between s t tokens) :
    Located text t := by
  have hahead := hst.ahead ▸ h.ahead
  refine ⟨?_, fun token htoken => hahead token (List.mem_append_right _ htoken)⟩
  rw [hst.behind]
  refine List.forall_mem_append.mpr ⟨fun token htoken => ?_, h.behind⟩
  exact hahead token (List.mem_append_left _ (List.mem_reverse.mp htoken))

theorem completes (h : Located text s) (hst : Completes s row k t) : Located text t := by
  obtain ⟨tokens, hbetween, -⟩ := hst.between
  exact h.between hbetween

theorem builds (h : Located text s) (hst : Builds s row t) : Located text t := by
  obtain ⟨k, hst⟩ := hst
  exact h.completes hst

theorem node {n : Nat} {p : Parsed n α} (h : Located text p.state) (span : Span)
    (make : Site → Expr) : Located text (p.node span make).state := ⟨h.behind, h.ahead⟩

theorem take (h : Located text s) (hne : s.kind ≠ .endOfInput) : Located text (s.take hne).state :=
  h.builds (buildsMore_take hne).builds

end Located

/-! ### Phrases -/

theorem Frames.isSlice {span : Span} (h : Frames s row t span) (hs : Located text s)
    (ht : Located text t) (hrow : ∀ q ∈ row, q.span.IsSlice text) : span.IsSlice text := by
  obtain ⟨left, right, rfl, hleft, hright⟩ := h
  have hl : left.IsSlice text := by
    rcases hleft with rfl | hfirst
    · exact hs.current
    · obtain ⟨q, hq, rfl⟩ := Option.map_eq_some_iff.mp hfirst
      exact hrow q (List.mem_of_head? hq)
  have hr : right.IsSlice text := by
    rcases hright with rfl | hlast
    · exact ht.previousSpan
    · obtain ⟨q, hq, rfl⟩ := Option.map_eq_some_iff.mp hlast
      exact hrow q (List.mem_of_getLast? hq)
  exact hl.merge hr

/-- Whatever is completed from slices is one, and so is everything inside it. -/
theorem Completes.slices (h : Completes s row k t) (hs : Located text s) :
    ∀ q ∈ row, q.AllSpans (Span.IsSlice text) := by
  induction h with
  | nil | names | take => simp
  | append hst _ ihst ihtu =>
      exact List.forall_mem_append.mpr ⟨ihst hs, ihtu (hs.completes hst)⟩
  | expr h hframes _ ih | stmt h hframes _ ih | exprStmt h hframes ih | block h hframes ih =>
      refine List.forall_mem_singleton.mpr (.intro ?_ (ih hs))
      exact hframes.isSlice hs (hs.completes h) fun q hq => (ih hs q hq).self

theorem Builds.slices {q : Phrase} (h : Builds s [q] t) (hs : Located text s) :
    q.AllSpans (Span.IsSlice text) := by
  obtain ⟨k, h⟩ := h
  exact h.slices hs q (List.mem_singleton_self q)

/-! ### Failing at a slice -/

/-- If the computation fails, it does so at a slice of the text. -/
def FailsIn (text : List Char) (x : Except ParseError α) : Prop :=
  ∀ e, x = .error e → e.span.IsSlice text

theorem failsIn_ok (a : α) : FailsIn text (.ok a : Except ParseError α) := by
  intro e he
  cases he

theorem failsIn_error {e : ParseError} (h : e.span.IsSlice text) :
    FailsIn text (.error e : Except ParseError α) := by
  rintro _ ⟨⟩
  exact h

theorem FailsIn.bind {x : Except ParseError α} {f : α → Except ParseError β} (hx : FailsIn text x)
    (hf : ∀ a, x = .ok a → FailsIn text (f a)) : FailsIn text (x >>= f) := by
  intro e he
  obtain hx' | ⟨a, ha, he⟩ := except_bind_error he
  · exact hx e hx'
  · exact hf a ha e he

theorem FailsIn.ite {c : Prop} [Decidable c] {x y : Except ParseError α} (hx : FailsIn text x)
    (hy : FailsIn text y) : FailsIn text (if c then x else y) := by
  split
  · exact hx
  · exact hy

theorem Located.expect (h : Located text s) (x : Symbol) : FailsIn text (s.expect x) := by
  unfold State.expect
  split
  · exact failsIn_ok _
  · exact failsIn_error h.current

theorem Located.passes (h : Located text s) (hst : Passes s t) : Located text t :=
  h.builds hst.1.builds

theorem Located.propertyName (h : Located text s) : FailsIn text (propertyName s) := by
  unfold Parser.propertyName
  split
  · exact failsIn_ok _
  · exact failsIn_ok _
  · exact failsIn_error h.current

theorem Located.entryKey {source : List Char} (h : Located text s) :
    FailsIn text (entryKey source s) := by
  unfold Parser.entryKey
  split
  · exact failsIn_ok _
  · exact failsIn_ok _
  · exact h.propertyName

theorem checkTarget_failsIn {e : Expr} (h : e.span.IsSlice text) :
    FailsIn text (checkTarget e) := by
  unfold checkTarget
  split
  · exact failsIn_ok _
  · exact failsIn_error h

/-! ### Expressions -/

def FailsBelow {n : Nat} (text : List Char) (rec : Below n) : Prop :=
  ∀ s h, Located text s → FailsIn text (rec s h)

section Expressions

variable {n m : Nat} {rec : Below n} {source : List Char}

theorem items_failsIn (hrec : Sound rec) (hfail : FailsBelow text rec) {close : Symbol} (s : State)
    (h : s.left < n) (hs : Located text s) : FailsIn text (items rec close s h) := by
  rw [items]
  split
  · exact failsIn_ok _
  · refine (hfail _ _ hs).bind fun item hitem => ?_
    have hitem' := hs.builds (hrec _ _ _ hitem)
    split
    · rename_i hcomma
      have hne := State.ne_end_of_eq hcomma (by simp)
      exact (items_failsIn hrec hfail _ _ (hitem'.take hne)).bind fun _ _ => failsIn_ok _
    · exact (hitem'.expect close).bind fun _ _ => failsIn_ok _
termination_by s.left
decreasing_by exact Nat.lt_trans (Parsed.shorter _) item.shorter

theorem entry_failsIn (hfail : FailsBelow text rec) (s : State) (h : s.left < n)
    (hs : Located text s) : FailsIn text (entry source rec s h) := by
  unfold entry
  refine hs.entryKey.bind fun key hkey => ?_
  have hkey' := hs.passes (passes_entryKey hkey)
  dsimp only
  split
  · rename_i hcolon
    have hne := State.ne_end_of_eq hcolon (by simp)
    exact (hfail _ _ (hkey'.take hne)).bind fun _ _ => failsIn_ok _
  · split
    · exact failsIn_ok _
    · exact failsIn_error hkey'.current

theorem entries_failsIn (hrec : Sound rec) (hfail : FailsBelow text rec) (s : State)
    (h : s.left < n) (hs : Located text s) : FailsIn text (entries source rec s h) := by
  rw [entries]
  split
  · exact failsIn_ok _
  · refine (entry_failsIn hfail _ _ hs).bind fun first hfirst => ?_
    have hfirst' := hs.builds (entry_builds hrec _ _ hfirst)
    split
    · rename_i hcomma
      have hne := State.ne_end_of_eq hcomma (by simp)
      exact (entries_failsIn hrec hfail _ _ (hfirst'.take hne)).bind fun _ _ => failsIn_ok _
    · exact (hfirst'.expect .rbrace).bind fun _ _ => failsIn_ok _
termination_by s.left
decreasing_by exact Nat.lt_trans (Parsed.shorter _) first.shorter

theorem primary_failsIn (hrec : Sound rec) (hfail : FailsBelow text rec) (s : State)
    (h : s.left ≤ n) (hs : Located text s) : FailsIn text (primary source rec s h) := by
  have hcurrent := hs.current
  -- With the first token given, the reader computes down to what it does at this token.
  obtain ⟨⟨behind, _ | ⟨⟨kind, span⟩, rest⟩⟩, names, exprs, stmts⟩ := s
  · exact failsIn_error hcurrent
  cases kind with
  | number | string => exact failsIn_ok _
  | ident name => exact .ite (failsIn_error hcurrent) (failsIn_ok _)
  | keyword word =>
      cases word
      case trueWord | falseWord | nullWord | undefinedWord => exact failsIn_ok _
      all_goals exact failsIn_error hcurrent
  | symbol x =>
      cases x
      case lparen =>
        have hopened := hs.take (State.ne_end_of_eq (k := .symbol .lparen) rfl (by simp))
        refine (hfail _ _ hopened).bind fun inner hinner => ?_
        refine ((hopened.builds (hrec _ _ _ hinner)).expect .rparen).bind fun closed _ => ?_
        exact .ite (failsIn_error hcurrent) (failsIn_ok _)
      case lbracket =>
        have hopened := hs.take (State.ne_end_of_eq (k := .symbol .lbracket) rfl (by simp))
        exact (items_failsIn hrec hfail _ _ hopened).bind fun _ _ => failsIn_ok _
      case lbrace =>
        have hopened := hs.take (State.ne_end_of_eq (k := .symbol .lbrace) rfl (by simp))
        exact (entries_failsIn hrec hfail _ _ hopened).bind fun _ _ => failsIn_ok _
      all_goals exact failsIn_error hcurrent
  | endOfInput | invalid => exact failsIn_error hcurrent

/-- What follows an expression may refuse it as a target. -/
theorem chain_failsIn (hrec : Sound rec) (hfail : FailsBelow text rec) (hmn : m ≤ n) {e : Expr}
    (s : State) (h : s.left < m) (he : e.span.IsSlice text) (hs : Located text s) :
    FailsIn text (chain rec hmn e s h) := by
  rw [chain]
  split
  · rename_i hkind
    have hdot := hs.take (State.ne_end_of_eq hkind (by simp))
    refine hdot.propertyName.bind fun property hproperty => ?_
    exact chain_failsIn hrec hfail hmn _ _ (he.merge hdot.current)
      ((hdot.passes (passes_propertyName hproperty)).node _ _)
  · rename_i hkind
    have hopened := hs.take (State.ne_end_of_eq hkind (by simp))
    refine (hfail _ _ hopened).bind fun key hkey => ?_
    have hkey' := hopened.builds (hrec _ _ _ hkey)
    refine (hkey'.expect .rbracket).bind fun closed hclosed => ?_
    obtain ⟨hpasses, hspan⟩ := passes_expect hclosed
    refine chain_failsIn hrec hfail hmn _ _ (he.merge ?_) ((hkey'.passes hpasses).node _ _)
    exact hspan ▸ hkey'.current
  · rename_i hkind
    have hopened := hs.take (State.ne_end_of_eq hkind (by simp))
    refine (items_failsIn hrec hfail _ _ hopened).bind fun args hargs => ?_
    have hargs' := hopened.builds (items_builds hrec _ _ hargs).builds
    exact chain_failsIn hrec hfail hmn _ _ (he.merge hargs'.previousSpan) (hargs'.node _ _)
  · exact (checkTarget_failsIn he).bind fun _ _ => failsIn_ok _
  · exact (checkTarget_failsIn he).bind fun _ _ => failsIn_ok _
  · exact failsIn_ok _
termination_by s.left
decreasing_by
  · exact Nat.lt_trans (Parsed.shorter _) (Parsed.shorter _)
  · exact Nat.lt_trans (Parsed.shorter _) (Nat.lt_trans (Parsed.shorter _) (Parsed.shorter _))
  · exact Nat.lt_trans (Parsed.shorter _) (Parsed.shorter _)

theorem operand_failsIn (hrec : Sound rec) (hfail : FailsBelow text rec) (s : State)
    (h : s.left ≤ n) (hs : Located text s) : FailsIn text (operand source rec s h) := by
  rw [operand]
  dsimp only
  split
  · rename_i hkind
    have hop := hs.take (State.ne_end_of_eq hkind (by simp))
    exact (operand_failsIn hrec hfail _ _ hop).bind fun _ _ => failsIn_ok _
  · rename_i hkind
    have hop := hs.take (State.ne_end_of_eq hkind (by simp))
    exact (operand_failsIn hrec hfail _ _ hop).bind fun _ _ => failsIn_ok _
  -- The operand of a step operator has to be a target.
  iterate 2
    · rename_i hkind
      have hop := hs.take (State.ne_end_of_eq hkind (by simp))
      refine (operand_failsIn hrec hfail _ _ hop).bind fun inner hinner => ?_
      have hspan := ((operand_builds hrec _ _ hinner).slices hop).self
      exact (checkTarget_failsIn hspan).bind fun _ _ => failsIn_ok _
  · refine (primary_failsIn hrec hfail _ _ hs).bind fun base hbase => ?_
    have hbuilt := primary_builds hrec _ _ hbase
    exact chain_failsIn hrec hfail h _ _ (hbuilt.slices hs).self (hs.builds hbuilt)
termination_by s.left
decreasing_by all_goals exact Parsed.shorter _

theorem factors_failsIn (hrec : Sound rec) (hfail : FailsBelow text rec) (hmn : m ≤ n) {left : Expr}
    (s : State) (h : s.left < m) (hs : Located text s) :
    FailsIn text (factors source rec hmn left s h) := by
  rw [factors]
  split
  · exact failsIn_ok _
  · rename_i op hop
    have hmark := hs.take (ne_end_of_productOp hop)
    refine (operand_failsIn hrec hfail _ _ hmark).bind fun right hright => ?_
    have hright' := hmark.builds (operand_builds hrec _ _ hright)
    exact factors_failsIn hrec hfail hmn _ _ (hright'.node _ _)
termination_by s.left
decreasing_by exact Nat.lt_trans (Parsed.shorter _) (Parsed.shorter _)

theorem product_failsIn (hrec : Sound rec) (hfail : FailsBelow text rec) (s : State)
    (h : s.left ≤ n) (hs : Located text s) : FailsIn text (product source rec s h) := by
  refine (operand_failsIn hrec hfail _ _ hs).bind fun first hfirst => ?_
  exact factors_failsIn hrec hfail h _ _ (hs.builds (operand_builds hrec _ _ hfirst))

theorem terms_failsIn (hrec : Sound rec) (hfail : FailsBelow text rec) (hmn : m ≤ n) {left : Expr}
    (s : State) (h : s.left < m) (hs : Located text s) :
    FailsIn text (terms source rec hmn left s h) := by
  rw [terms]
  split
  · exact failsIn_ok _
  · rename_i op hop
    have hmark := hs.take (ne_end_of_sumOp hop)
    refine (product_failsIn hrec hfail _ _ hmark).bind fun right hright => ?_
    have hright' := hmark.builds (product_builds hrec _ _ hright)
    exact terms_failsIn hrec hfail hmn _ _ (hright'.node _ _)
termination_by s.left
decreasing_by exact Nat.lt_trans (Parsed.shorter _) (Parsed.shorter _)

theorem sum_failsIn (hrec : Sound rec) (hfail : FailsBelow text rec) (s : State) (h : s.left ≤ n)
    (hs : Located text s) : FailsIn text (sum source rec s h) := by
  refine (product_failsIn hrec hfail _ _ hs).bind fun first hfirst => ?_
  exact terms_failsIn hrec hfail h _ _ (hs.builds (product_builds hrec _ _ hfirst))

theorem exprWith_failsIn (hrec : Sound rec) (hfail : FailsBelow text rec) (s : State)
    (h : s.left ≤ n) (hs : Located text s) : FailsIn text (exprWith source rec s h) := by
  refine (sum_failsIn hrec hfail _ _ hs).bind fun target htarget => ?_
  have hbuilt := sum_builds hrec _ _ htarget
  dsimp only
  split
  · exact failsIn_ok _
  · rename_i op hop
    have hmark := (hs.builds hbuilt).take (ne_end_of_assignOp hop)
    refine (checkTarget_failsIn (hbuilt.slices hs).self).bind fun _ _ => ?_
    exact (hfail _ _ hmark).bind fun _ _ => failsIn_ok _

theorem expr_failsIn (s : State) (hs : Located text s) : FailsIn text (expr source s) := by
  rw [expr]
  exact exprWith_failsIn (fun t _ _ ht => expr_builds t ht) (fun t _ ht => expr_failsIn t ht) _ _ hs
termination_by s.left

end Expressions

/-! ### Statements -/

theorem Located.eat (h : Located text s) (x : Symbol) : Located text (s.eat x) :=
  h.builds (builds_eat s x)

def FailsBlock {n : Nat} (text : List Char) (rec : BlockBelow n) : Prop :=
  ∀ s h, Located text s → FailsIn text (rec s h)

section Statements

variable {n : Nat} {rec : BlockBelow n} {source : List Char}

theorem initialValue_failsIn {constant : Bool} (s : State) (h : s.left < n) (hs : Located text s) :
    FailsIn text (initialValue source constant s h) := by
  unfold initialValue
  split
  · rename_i hassign
    have hmark := hs.take (State.ne_end_of_eq hassign (by simp))
    exact (expr_failsIn _ hmark).bind fun _ _ => failsIn_ok _
  · split
    · exact failsIn_error hs.current
    · exact failsIn_ok _

theorem declaration_failsIn {constant : Bool} {start : Span} (s : State) (hs : Located text s) :
    FailsIn text (declaration source constant start s) := by
  unfold declaration
  split
  · rename_i hkind
    have hname := hs.take (State.ne_end_of_eq hkind (by simp))
    exact (initialValue_failsIn _ _ hname).bind fun _ _ => failsIn_ok _
  · exact failsIn_error hs.current

theorem stmt_failsIn (hfail : FailsBlock text rec) (s : State) (h : s.left ≤ n)
    (hs : Located text s) : FailsIn text (stmt source rec s h) := by
  unfold stmt
  dsimp only
  split
  · exact failsIn_ok _
  · rename_i hkind
    have hopened := hs.take (State.ne_end_of_eq hkind (by simp))
    exact (hfail _ _ hopened).bind fun _ _ => failsIn_ok _
  iterate 3
    · rename_i hkind
      have hword := hs.take (State.ne_end_of_eq hkind (by simp))
      exact (declaration_failsIn _ hword).bind fun _ _ => failsIn_ok _
  · rename_i hkind
    have hword := hs.take (State.ne_end_of_eq hkind (by simp))
    split
    · exact failsIn_ok _
    · exact (expr_failsIn _ hword).bind fun _ _ => failsIn_ok _
  · exact failsIn_error hs.current
  · split
    · exact failsIn_error hs.current
    · exact (expr_failsIn _ hs).bind fun _ _ => failsIn_ok _

theorem stmts_failsIn (hrec : SoundBlock rec) (hfail : FailsBlock text rec) (s : State)
    (h : s.left ≤ n) (hs : Located text s) : FailsIn text (stmts source rec s h) := by
  rw [stmts]
  split
  · exact failsIn_ok _
  · split
    · exact failsIn_error hs.current
    · refine (stmt_failsIn hfail _ _ hs).bind fun first hfirst => ?_
      have hfirst' := hs.builds (stmt_builds hrec _ _ hfirst)
      exact (stmts_failsIn hrec hfail _ _ hfirst').bind fun _ _ => failsIn_ok _
termination_by s.left
decreasing_by exact first.shorter

theorem blockRest_failsIn (s : State) (hs : Located text s) :
    FailsIn text (blockRest source s) := by
  rw [blockRest]
  exact (stmts_failsIn (fun t _ _ ht => blockRest_closes t ht)
    (fun t _ ht => blockRest_failsIn t ht) _ _ hs).bind fun _ _ => failsIn_ok _
termination_by s.left

theorem block_failsIn (s : State) (hs : Located text s) : FailsIn text (block source s) := by
  refine (hs.expect .lbrace).bind fun opened hopened => ?_
  have hopened' := hs.passes (passes_expect hopened).1
  exact (blockRest_failsIn _ hopened').bind fun _ _ => failsIn_ok _

/-! ### Procedures -/

theorem params_failsIn (s : State) (hs : Located text s) : FailsIn text (params s) := by
  rw [params]
  split
  · exact failsIn_ok _
  · split
    · rename_i hkind
      have hname := hs.take (State.ne_end_of_eq hkind (by simp))
      dsimp only
      split
      · rename_i hcomma
        have hcomma' := hname.take (State.ne_end_of_eq hcomma (by simp))
        exact (params_failsIn _ hcomma').bind fun _ _ => failsIn_ok _
      · exact (hname.expect .rparen).bind fun _ _ => failsIn_ok _
    · exact failsIn_error hs.current
termination_by s.left
decreasing_by exact Nat.lt_trans (Parsed.shorter _) (Parsed.shorter _)

theorem arrowBody_failsIn (s : State) (hs : Located text s) :
    FailsIn text (arrowBody source s) := by
  unfold arrowBody
  split
  · exact block_failsIn s hs
  · exact (expr_failsIn s hs).bind fun _ _ => failsIn_ok _

theorem signature_failsIn (s : State) (hs : Located text s) :
    FailsIn text (signature source s) := by
  unfold signature
  split
  · rename_i hkind
    have hword := hs.take (State.ne_end_of_eq hkind (by simp))
    have hnamed := hword.builds (builds_ident _)
    refine (hnamed.expect .lparen).bind fun opened hopened => ?_
    have hopened' := hnamed.passes (passes_expect hopened).1
    refine (params_failsIn _ hopened').bind fun list hlist => ?_
    exact (block_failsIn _ (hopened'.builds (params_builds _ hlist))).bind fun _ _ => failsIn_ok _
  · rename_i hkind
    have hopened := hs.take (State.ne_end_of_eq hkind (by simp))
    refine (params_failsIn _ hopened).bind fun list hlist => ?_
    have hlist' := hopened.builds (params_builds _ hlist)
    refine (hlist'.expect .arrow).bind fun arrow harrow => ?_
    have harrow' := hlist'.passes (passes_expect harrow).1
    exact (arrowBody_failsIn _ harrow').bind fun _ _ => failsIn_ok _
  · rename_i hkind
    have hname := hs.take (State.ne_end_of_eq hkind (by simp))
    dsimp only
    split
    · rename_i harrow
      have harrow' := hname.take (State.ne_end_of_eq harrow (by simp))
      exact (arrowBody_failsIn _ harrow').bind fun _ _ => failsIn_ok _
    · exact failsIn_error hs.current
  · exact failsIn_error hs.current

theorem procedure_failsIn (s : State) (hs : Located text s) :
    FailsIn text (procedure source s) := by
  refine (signature_failsIn s hs).bind fun whole hwhole => ?_
  obtain ⟨root, -, hbuilt⟩ := signature_builds s hwhole
  dsimp only
  split
  · exact failsIn_ok _
  · exact failsIn_error ((hs.builds hbuilt).eat .semicolon).current

/-! ### Procedures that are read -/

theorem params_slices (s : State) (hs : Located text s) {r : Parsed s.left (List Param)}
    (hr : params s = .ok r) : ∀ x ∈ r.value, x.span.IsSlice text := by
  rw [params] at hr
  split at hr
  · cases hr
    simp
  · split at hr
    · rename_i hkind
      have hname := hs.take (State.ne_end_of_eq hkind (by simp))
      dsimp only at hr
      split at hr
      · rename_i hcomma
        have hcomma' := hname.take (State.ne_end_of_eq hcomma (by simp))
        obtain ⟨rest, hrest, hr⟩ := except_bind_ok hr
        cases hr
        exact List.forall_mem_cons.mpr ⟨hs.current, params_slices _ hcomma' hrest⟩
      · obtain ⟨closed, -, hr⟩ := except_bind_ok hr
        cases hr
        exact List.forall_mem_singleton.mpr hs.current
    · cases hr
termination_by s.left
decreasing_by exact Nat.lt_trans (Parsed.shorter _) (Parsed.shorter _)

theorem signature_slices (s : State) (hs : Located text s)
    {r : Parsed s.left (List Param × ProcedureBody)} (hr : signature source s = .ok r) :
    ∀ x ∈ r.value.1, x.span.IsSlice text := by
  unfold signature at hr
  split at hr
  · rename_i hkind
    have hnamed := (hs.take (State.ne_end_of_eq hkind (by simp))).builds (builds_ident _)
    obtain ⟨opened, hopened, hr⟩ := except_bind_ok hr
    obtain ⟨list, hlist, hr⟩ := except_bind_ok hr
    obtain ⟨body, -, hr⟩ := except_bind_ok hr
    cases hr
    exact params_slices _ (hnamed.passes (passes_expect hopened).1) hlist
  · rename_i hkind
    have hopened := hs.take (State.ne_end_of_eq hkind (by simp))
    obtain ⟨list, hlist, hr⟩ := except_bind_ok hr
    obtain ⟨arrow, -, hr⟩ := except_bind_ok hr
    obtain ⟨body, -, hr⟩ := except_bind_ok hr
    cases hr
    exact params_slices _ hopened hlist
  · dsimp only at hr
    split at hr
    · obtain ⟨body, -, hr⟩ := except_bind_ok hr
      cases hr
      exact List.forall_mem_singleton.mpr hs.current
    · cases hr
  · cases hr

theorem BuildsBody.slices {body : ProcedureBody} (h : BuildsBody s body u) (hs : Located text s) :
    ∀ q ∈ body.roots, q.AllSpans (Span.IsSlice text) := by
  obtain ⟨root, hroot, hbuilt⟩ := h
  have hslices := hbuilt.slices hs
  cases body with
  | expr value =>
      obtain rfl := hroot
      exact List.forall_mem_singleton.mpr hslices
  | block first body =>
      obtain ⟨span, rfl⟩ := hroot
      exact fun q hq => hslices.child hq

end Statements

end Parser

/-- All spans that a procedure records are among `places`. -/
structure Procedure.AllSpans (places : Span → Prop) (p : Procedure) : Prop where
  whole : places p.span
  params : ∀ x ∈ p.params, places x.span
  body : ∀ q ∈ p.body.roots, q.AllSpans places

theorem Parser.procedure_allSpans {text source : List Char} {s : State} {p : Procedure}
    (hp : Parser.procedure source s = .ok p) (hs : Located text s) :
    p.AllSpans (Span.IsSlice text) := by
  obtain ⟨u, hbody, -, -, hspan⟩ := procedure_builds hp
  refine ⟨?_, ?_, hbody.slices hs⟩
  · obtain ⟨root, -, hbuilt⟩ := hbody
    exact hspan ▸ hs.current.merge (hs.builds hbuilt).previousSpan
  · obtain ⟨whole, hwhole, hp⟩ := except_bind_ok hp
    dsimp only at hp
    split at hp
    · cases hp
      exact signature_slices s hs hwhole
    · cases hp

namespace Procedure

variable {source : String}

theorem parse_error_isSlice {e : ParseError} (hshort : utf8Length source.toList < 2 ^ 32)
    (h : parse source = .error e) : e.span.IsSlice source.toList := by
  unfold parse at h
  split at h
  · rename_i error herror
    cases h
    exact Token.ofSource_error_isSlice hshort herror
  · rename_i tokens names htokens
    have htokens := Token.ofSource_isSlice hshort htokens
    exact Parser.procedure_failsIn _ ⟨by simp [Cursor.ofTokens], htokens⟩ e h

theorem parse_allSpans {p : Procedure} (hshort : utf8Length source.toList < 2 ^ 32)
    (h : parse source = .ok p) : p.AllSpans (Span.IsSlice source.toList) := by
  unfold parse at h
  split at h
  · cases h
  · rename_i tokens names htokens
    have htokens := Token.ofSource_isSlice hshort htokens
    exact Parser.procedure_allSpans h ⟨by simp [Cursor.ofTokens], htokens⟩

end Procedure

end PathCopy
