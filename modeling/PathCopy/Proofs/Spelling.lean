import PathCopy.Proofs.Building
import PathCopy.Proofs.Interning

/-!
Where the names of a tree come from. What an expression says by itself, its number, its text or its
names, stands in a token, and the table of names that is left in the end knows the text that this
token has there: names are only ever added, so what was known when a phrase was read stays known.
-/

namespace PathCopy

/-- A token is how a name is written. Identifiers and strings carry their handle; a keyword gives its
text and a number the text that stands in the source. -/
def Token.Names (source : List Char) (names : NameTable) (token : Token) (name : Name) : Prop :=
  match token.kind with
  | .ident text | .string text => name = text
  | .keyword word => names.Knows name word.text
  | .number _ => names.Knows name (token.span.snippet source)
  | _ => False

/-- An entry begins with a token that is its key. -/
def Property.SaidBy (source : List Char) (tokens : List Token) (names : NameTable)
    (entry : Property) : Prop :=
  ∃ token ∈ tokens, entry.span = token.span.merge entry.value.span ∧
    token.Names source names entry.key

/-- What an expression says besides its parts stands in tokens. -/
def Expr.SaidBy (source : List Char) (tokens : List Token) (names : NameTable) : Expr → Prop
  | .number site bits => ⟨.number bits, site.span⟩ ∈ tokens
  | .string site text => ⟨.string text, site.span⟩ ∈ tokens
  | .ident site name => ⟨.ident name, site.span⟩ ∈ tokens
  | .member _ _ property => ∃ token ∈ tokens, token.Names source names property
  | .object _ entries => ∀ entry ∈ entries, entry.SaidBy source tokens names
  | _ => True

/-- What a phrase says besides its parts stands in tokens, and in its place: the property of a
member is the token that the member ends with, and the name that is declared stands behind the
keyword. -/
def Phrase.WrittenIn (source : List Char) (tokens : List Token) (names : NameTable) : Phrase → Prop
  | .expr (.member site base property) => ∃ token ∈ tokens,
      site.span = base.span.merge token.span ∧ token.Names source names property
  | .expr e => e.SaidBy source tokens names
  | .stmt (.declare span name _ _) => ∃ word first place last, span = first.merge last ∧
      [⟨.keyword word, first⟩, ⟨.ident name, place⟩] <:+: tokens
  | .stmt _ => True

theorem Phrase.WrittenIn.said {source : List Char} {tokens : List Token} {names : NameTable}
    {e : Expr} (h : (Phrase.expr e).WrittenIn source tokens names) :
    e.SaidBy source tokens names := by
  cases e with
  | member site base property =>
      obtain ⟨token, htoken, -, hname⟩ := h
      exact ⟨token, htoken, hname⟩
  | _ => exact h

section Mono

variable {source : List Char} {tokens tokens' : List Token} {names names' : NameTable}

theorem Token.Names.mono {token : Token} {name : Name} (h : token.Names source names name)
    (hnames : names.Extends names') : token.Names source names' name := by
  unfold Token.Names at h ⊢
  split at h
  · exact h
  · exact h
  · exact hnames _ _ h
  · exact hnames _ _ h
  · exact h.elim

theorem Property.SaidBy.mono {entry : Property} (h : entry.SaidBy source tokens names)
    (hsub : tokens ⊆ tokens') (hnames : names.Extends names') :
    entry.SaidBy source tokens' names' := by
  obtain ⟨token, htoken, hspan, hkey⟩ := h
  exact ⟨token, hsub htoken, hspan, hkey.mono hnames⟩

theorem Expr.SaidBy.mono {e : Expr} (h : e.SaidBy source tokens names) (hsub : tokens ⊆ tokens')
    (hnames : names.Extends names') : e.SaidBy source tokens' names' := by
  cases e with
  | number | string | ident => exact hsub h
  | member site base property =>
      obtain ⟨token, htoken, hname⟩ := h
      exact ⟨token, hsub htoken, hname.mono hnames⟩
  | object site entries => exact fun entry hentry => (h entry hentry).mono hsub hnames
  | _ => trivial

theorem Phrase.WrittenIn.mono {q : Phrase} (h : q.WrittenIn source tokens names)
    (hsuffix : tokens <:+ tokens') (hnames : names.Extends names') :
    q.WrittenIn source tokens' names' := by
  cases q with
  | expr e =>
      cases e with
      | member site base property =>
          obtain ⟨token, htoken, hspan, hname⟩ := h
          exact ⟨token, hsuffix.subset htoken, hspan, hname.mono hnames⟩
      | _ => exact h.said.mono hsuffix.subset hnames
  | stmt st =>
      cases st with
      | declare span name assignable initial =>
          obtain ⟨word, first, place, last, hspan, hwithin⟩ := h
          exact ⟨word, first, place, last, hspan, hwithin.trans hsuffix.isInfix⟩
      | _ => trivial

end Mono

namespace Parser

variable {source : List Char} {s t u s₀ : State} {row ps qs : List Phrase}

/-- From `s` to `t` tokens are consumed and names are added, and all that the phrases of `row` say
is written in the tokens from `s` on. -/
structure Spells (source : List Char) (s : State) (row : List Phrase) (t : State) : Prop where
  names : s.names.Extends t.names
  ahead : t.cursor.ahead <:+ s.cursor.ahead
  written : ∀ q ∈ row, ∀ x ∈ q.all, x.WrittenIn source s.cursor.ahead t.names

theorem Spells.refl (s : State) : Spells source s [] s := ⟨.refl _, List.suffix_refl _, nofun⟩

theorem Spells.append (hst : Spells source s ps t) (htu : Spells source t qs u) :
    Spells source s (ps ++ qs) u where
  names := hst.names.trans htu.names
  ahead := htu.ahead.trans hst.ahead
  written := List.forall_mem_append.mpr
    ⟨fun q hq x hx => (hst.written q hq x hx).mono (List.suffix_refl _) htu.names,
      fun q hq x hx => (htu.written q hq x hx).mono hst.ahead (.refl _)⟩

/-! ### Tokens -/

theorem current_mem (h : s.kind ≠ .endOfInput) : s.current ∈ s.cursor.ahead := by
  rw [(between_take h).ahead]
  exact List.mem_cons_self

theorem ident_mem {name : Name} (h : s.kind = .ident name) :
    ⟨.ident name, s.current.span⟩ ∈ s.cursor.ahead := by
  rw [← show s.current.kind = .ident name from h]
  exact current_mem (State.ne_end_of_eq h (by simp))

theorem take_suffix (h : s.kind ≠ .endOfInput) :
    (s.take h).state.cursor.ahead <:+ s.cursor.ahead := by
  rw [(between_take h).ahead]
  exact List.suffix_append _ _

theorem spells_take (h : s.kind ≠ .endOfInput) : Spells source s [] (s.take h).state where
  names := .refl _
  ahead := take_suffix h
  written := nofun

theorem spells_intern (s : State) (text : String) : Spells source s [] (s.intern text).2 :=
  ⟨s.names.extends_intern text, List.suffix_refl _, nofun⟩

theorem spells_expect {x : Symbol} {r : Parsed s.left Span} (h : s.expect x = .ok r) :
    Spells source s [] r.state := by
  unfold State.expect at h
  split at h
  · rename_i hkind
    cases h
    exact spells_take (State.ne_end_of_eq hkind (by simp))
  · cases h

theorem spells_eat (s : State) (x : Symbol) : Spells source s [] (s.eat x) := by
  unfold State.eat
  split
  · exact spells_take _
  · exact .refl s

theorem spells_ident (s : State) : Spells source s []
    (if s.cursor.atIdent then { s with cursor := s.cursor.advance } else s) := by
  obtain ⟨k, h⟩ := builds_ident s
  obtain ⟨tokens, hbetween, -⟩ := h.between
  refine ⟨?_, ?_, nofun⟩
  · split <;> exact .refl _
  · rw [hbetween.ahead]
    exact List.suffix_append _ _

/-- A name is read with the token that it is written as. -/
def ReadsName (source : List Char) (s : State) (name : Name) (t : State) : Prop :=
  Spells source s [] t ∧ s.current ∈ s.cursor.ahead ∧ s.current.Names source t.names name

theorem propertyName_reads (source : List Char) {r : Parsed s.left Name} (h : propertyName s = .ok r) :
    ReadsName source s r.value r.state := by
  unfold propertyName at h
  split at h
  · rename_i name hkind
    have hne := State.ne_end_of_eq hkind (by simp)
    have hcurrent : s.current.kind = .ident name := hkind
    cases h
    refine ⟨spells_take hne, current_mem hne, ?_⟩
    rw [Token.Names, hcurrent]
  · rename_i word hkind
    have hne := State.ne_end_of_eq hkind (by simp)
    have hcurrent : s.current.kind = .keyword word := hkind
    cases h
    refine ⟨(spells_take hne).append (spells_intern _ _), current_mem hne, ?_⟩
    rw [Token.Names, hcurrent]
    exact NameTable.knows_intern _ _
  · cases h

theorem entryKey_reads {r : Parsed s.left Name} (h : entryKey source s = .ok r) :
    ReadsName source s r.value r.state := by
  unfold entryKey at h
  split at h
  · rename_i text hkind
    have hne := State.ne_end_of_eq hkind (by simp)
    have hcurrent : s.current.kind = .string text := hkind
    cases h
    refine ⟨spells_take hne, current_mem hne, ?_⟩
    rw [Token.Names, hcurrent]
  · rename_i bits hkind
    have hne := State.ne_end_of_eq hkind (by simp)
    have hcurrent : s.current.kind = .number bits := hkind
    cases h
    refine ⟨(spells_take hne).append (spells_intern _ _), current_mem hne, ?_⟩
    rw [Token.Names, hcurrent]
    exact NameTable.knows_intern _ _
  · exact propertyName_reads source h

/-! ### Expressions -/

/-- The parts of a phrase have been read, and what it says besides them stands in tokens. -/
theorem Spells.phrase {q : Phrase} (h : Spells source s q.children t)
    (hwritten : q.WrittenIn source s.cursor.ahead t.names) :
    Spells source s [q] t where
  names := h.names
  ahead := h.ahead
  written := by
    refine List.forall_mem_singleton.mpr fun x hx => ?_
    rcases Phrase.mem_all_iff.mp hx with rfl | ⟨c, hc, hx⟩
    · exact hwritten
    · exact h.written c hc x hx

theorem Spells.node {span : Span} (make : Site → Expr) (es : List Expr)
    (h : Spells source s (es.map .expr) t) (hchildren : ∀ site, (make site).children = es)
    (hwritten : ∀ number,
      (Phrase.expr (make ⟨span, number⟩)).WrittenIn source s.cursor.ahead t.names) :
    Spells source s [.expr (t.node span make).1] (t.node span make).2 := by
  refine .phrase ⟨h.names, h.ahead, ?_⟩ (hwritten _)
  rw [Phrase.children, State.node, hchildren]
  exact h.written

theorem leaf_spells (h : s.kind ≠ .endOfInput) (make : Site → Expr)
    (hchildren : ∀ site, (make site).children = [])
    (hwritten : ∀ number, (Phrase.expr (make ⟨s.current.span, number⟩)).WrittenIn source
      s.cursor.ahead s.names) :
    Spells source s [.expr (s.leaf h make).value] (s.leaf h make).state :=
  (spells_take h).node make [] hchildren hwritten

def SpellsAll (source : List Char) {n : Nat} (rec : Below n) : Prop :=
  ∀ s h r, rec s h = .ok r → Spells source s [.expr r.value] r.state

section Expressions

variable {m n : Nat} {rec : Below n}

theorem items_spells (hrec : SpellsAll source rec) {close : Symbol} (s : State) (h : s.left < n)
    {r : Parsed s.left (List Expr)} (hr : items rec close s h = .ok r) :
    Spells source s (r.value.map .expr) r.state := by
  rw [items] at hr
  split at hr
  · rename_i hclose
    cases hr
    exact spells_take (State.ne_end_of_eq hclose (by simp))
  · obtain ⟨item, hitem, hr⟩ := except_bind_ok hr
    have hfirst := hrec _ _ _ hitem
    split at hr
    · obtain ⟨rest, hrest, hr⟩ := except_bind_ok hr
      cases hr
      exact hfirst.append ((spells_take _).append (items_spells hrec _ _ hrest))
    · obtain ⟨closed, hclosed, hr⟩ := except_bind_ok hr
      cases hr
      exact hfirst.append (spells_expect hclosed)
termination_by s.left
decreasing_by exact Nat.lt_trans (Parsed.shorter _) item.shorter

def SpellsEntries (source : List Char) (s : State) (entries : List Property) (t : State) : Prop :=
  Spells source s ((entries.map Property.value).map .expr) t ∧
    ∀ entry ∈ entries, entry.SaidBy source s.cursor.ahead t.names

theorem SpellsEntries.append {entries entries' : List Property}
    (hst : SpellsEntries source s entries t) (htu : SpellsEntries source t entries' u) :
    SpellsEntries source s (entries ++ entries') u := by
  refine ⟨?_, List.forall_mem_append.mpr ⟨fun entry hentry => ?_, fun entry hentry => ?_⟩⟩
  · rw [List.map_append, List.map_append]
    exact hst.1.append htu.1
  · exact (hst.2 entry hentry).mono (List.Subset.refl _) htu.1.names
  · exact (htu.2 entry hentry).mono hst.1.ahead.subset (.refl _)

theorem Spells.noEntries (h : Spells source s [] t) : SpellsEntries source s [] t := ⟨h, nofun⟩

theorem entry_spells (hrec : SpellsAll source rec) (s : State) (h : s.left < n)
    {r : Parsed s.left Property} (hr : entry source rec s h = .ok r) :
    SpellsEntries source s [r.value] r.state := by
  unfold entry at hr
  obtain ⟨key, hkey, hr⟩ := except_bind_ok hr
  obtain ⟨hspells, hcurrent, hname⟩ := entryKey_reads hkey
  dsimp only at hr
  split at hr
  · obtain ⟨value, hvalue, hr⟩ := except_bind_ok hr
    cases hr
    have hrest := (spells_take _).append (hrec _ _ _ hvalue)
    refine ⟨hspells.append hrest, List.forall_mem_singleton.mpr ?_⟩
    exact ⟨_, hcurrent, rfl, hname.mono hrest.names⟩
  · split at hr
    · rename_i name hkind
      cases hr
      exact ⟨hspells.node (.ident · name) [] (fun _ => rfl) fun _ => ident_mem hkind,
        List.forall_mem_singleton.mpr ⟨_, hcurrent, rfl, hname⟩⟩
    · cases hr

theorem entries_spells (hrec : SpellsAll source rec) (s : State) (h : s.left < n)
    {r : Parsed s.left (List Property)} (hr : entries source rec s h = .ok r) :
    SpellsEntries source s r.value r.state := by
  rw [entries] at hr
  split at hr
  · rename_i hclose
    cases hr
    exact (spells_take (State.ne_end_of_eq hclose (by simp))).noEntries
  · obtain ⟨first, hfirst, hr⟩ := except_bind_ok hr
    have hbegin := entry_spells hrec _ _ hfirst
    split at hr
    · obtain ⟨rest, hrest, hr⟩ := except_bind_ok hr
      cases hr
      exact hbegin.append ((spells_take _).noEntries.append (entries_spells hrec _ _ hrest))
    · obtain ⟨closed, hclosed, hr⟩ := except_bind_ok hr
      cases hr
      exact hbegin.append (spells_expect hclosed).noEntries
termination_by s.left
decreasing_by exact Nat.lt_trans (Parsed.shorter _) first.shorter

theorem primary_spells (hrec : SpellsAll source rec) (s : State) (h : s.left ≤ n)
    {r : Parsed s.left Expr} (hr : primary source rec s h = .ok r) :
    Spells source s [.expr r.value] r.state := by
  -- With the first token given, the reader computes down to what it does at this token.
  obtain ⟨⟨behind, _ | ⟨⟨kind, span⟩, rest⟩⟩, names, exprs, stmts⟩ := s
  · cases hr
  cases kind with
  | number | string =>
      cases hr
      exact leaf_spells _ _ (fun _ => rfl) fun _ => List.mem_cons_self
  | ident name =>
      have hr : (if _ then _ else _) = Except.ok r := hr
      split at hr
      · cases hr
      · cases hr
        exact leaf_spells _ _ (fun _ => rfl) fun _ => List.mem_cons_self
  | keyword word =>
      cases word
      case trueWord | falseWord | nullWord | undefinedWord =>
        cases hr
        exact leaf_spells _ _ (fun _ => rfl) fun _ => trivial
      all_goals cases hr
  | symbol x =>
      cases x
      case lparen =>
        obtain ⟨inner, hinner, hr⟩ := except_bind_ok hr
        obtain ⟨closed, hclosed, hr⟩ := except_bind_ok hr
        dsimp only at hr
        split at hr
        · cases hr
        · cases hr
          exact ((spells_take _).append (hrec _ _ _ hinner)).append (spells_expect hclosed)
      case lbracket =>
        obtain ⟨list, hlist, hr⟩ := except_bind_ok hr
        cases hr
        exact ((spells_take _).append (items_spells hrec _ _ hlist)).node (.array · list.value)
          list.value (fun _ => rfl) fun _ => trivial
      case lbrace =>
        obtain ⟨list, hlist, hr⟩ := except_bind_ok hr
        cases hr
        have hlist := (spells_take _).noEntries.append (entries_spells hrec _ _ hlist)
        exact hlist.1.node (.object · list.value) (list.value.map Property.value) (fun _ => rfl)
          fun _ => hlist.2
      all_goals cases hr
  | endOfInput | invalid => cases hr

/-- What follows an expression is read after it, and takes it as its first child. -/
theorem chain_spells (hrec : SpellsAll source rec) (hmn : m ≤ n) {e : Expr} (s : State)
    (h : s.left < m) (he : Spells source s₀ [.expr e] s) {r : Parsed m Expr}
    (hr : chain rec hmn e s h = .ok r) : Spells source s₀ [.expr r.value] r.state := by
  rw [chain] at hr
  split at hr
  · rename_i hdot
    obtain ⟨property, hproperty, hr⟩ := except_bind_ok hr
    obtain ⟨hspells, hcurrent, hname⟩ := propertyName_reads source hproperty
    have hdot := he.append (spells_take (State.ne_end_of_eq hdot (by simp)))
    refine chain_spells hrec hmn _ _ ?_ hr
    exact (hdot.append hspells).node (.member · e property.value) [e] (fun _ => rfl)
      fun _ => ⟨_, hdot.ahead.subset hcurrent, rfl, hname⟩
  · obtain ⟨key, hkey, hr⟩ := except_bind_ok hr
    obtain ⟨closed, hclosed, hr⟩ := except_bind_ok hr
    refine chain_spells hrec hmn _ _ ?_ hr
    exact (((he.append (spells_take _)).append (hrec _ _ _ hkey)).append
      (spells_expect hclosed)).node (.index · e key.value) [e, key.value] (fun _ => rfl)
      fun _ => trivial
  · obtain ⟨args, hargs, hr⟩ := except_bind_ok hr
    refine chain_spells hrec hmn _ _ ?_ hr
    exact ((he.append (spells_take _)).append (items_spells hrec _ _ hargs)).node
      (.call · e args.value) (e :: args.value) (fun _ => rfl) fun _ => trivial
  · obtain ⟨-, -, hr⟩ := except_bind_ok hr
    cases hr
    exact (he.append (spells_take _)).node (.step · .increment .after e) [e] (fun _ => rfl)
      fun _ => trivial
  · obtain ⟨-, -, hr⟩ := except_bind_ok hr
    cases hr
    exact (he.append (spells_take _)).node (.step · .decrement .after e) [e] (fun _ => rfl)
      fun _ => trivial
  · cases hr
    exact he
termination_by s.left
decreasing_by
  · exact Nat.lt_trans (Parsed.shorter _) (Parsed.shorter _)
  · exact Nat.lt_trans (Parsed.shorter _) (Nat.lt_trans (Parsed.shorter _) (Parsed.shorter _))
  · exact Nat.lt_trans (Parsed.shorter _) (Parsed.shorter _)

theorem operand_spells (hrec : SpellsAll source rec) (s : State) (h : s.left ≤ n)
    {r : Parsed s.left Expr} (hr : operand source rec s h = .ok r) :
    Spells source s [.expr r.value] r.state := by
  rw [operand] at hr
  dsimp only at hr
  split at hr
  · obtain ⟨inner, hinner, hr⟩ := except_bind_ok hr
    cases hr
    exact ((spells_take _).append (operand_spells hrec _ _ hinner)).node
      (.unary · .neg inner.value) [inner.value] (fun _ => rfl) fun _ => trivial
  · obtain ⟨inner, hinner, hr⟩ := except_bind_ok hr
    cases hr
    exact ((spells_take _).append (operand_spells hrec _ _ hinner)).node
      (.unary · .not inner.value) [inner.value] (fun _ => rfl) fun _ => trivial
  · obtain ⟨inner, hinner, hr⟩ := except_bind_ok hr
    obtain ⟨-, -, hr⟩ := except_bind_ok hr
    cases hr
    exact ((spells_take _).append (operand_spells hrec _ _ hinner)).node
      (.step · .increment .before inner.value) [inner.value] (fun _ => rfl) fun _ => trivial
  · obtain ⟨inner, hinner, hr⟩ := except_bind_ok hr
    obtain ⟨-, -, hr⟩ := except_bind_ok hr
    cases hr
    exact ((spells_take _).append (operand_spells hrec _ _ hinner)).node
      (.step · .decrement .before inner.value) [inner.value] (fun _ => rfl) fun _ => trivial
  · obtain ⟨base, hbase, hr⟩ := except_bind_ok hr
    exact chain_spells hrec h _ base.shorter (primary_spells hrec _ _ hbase) hr
termination_by s.left
decreasing_by all_goals exact Parsed.shorter _

/-- An operator between two expressions, the first of which has been read. -/
theorem infix_spells {left right : Expr} (hleft : Spells source s₀ [.expr left] s)
    (h : s.kind ≠ .endOfInput) (hright : Spells source (s.take h).state [.expr right] t)
    {span : Span} (make : Site → Expr) (hchildren : ∀ site, (make site).children = [left, right])
    (hwritten : ∀ site, (Phrase.expr (make site)).WrittenIn source s₀.cursor.ahead t.names) :
    Spells source s₀ [.expr (t.node span make).1] (t.node span make).2 :=
  ((hleft.append (spells_take h)).append hright).node make [left, right] hchildren
    fun _ => hwritten _

theorem factors_spells (hrec : SpellsAll source rec) (hmn : m ≤ n) {left : Expr} (s : State)
    (h : s.left < m) (hleft : Spells source s₀ [.expr left] s) {r : Parsed m Expr}
    (hr : factors source rec hmn left s h = .ok r) : Spells source s₀ [.expr r.value] r.state := by
  rw [factors] at hr
  split at hr
  · cases hr
    exact hleft
  · rename_i op hop
    obtain ⟨right, hright, hr⟩ := except_bind_ok hr
    refine factors_spells hrec hmn _ _ ?_ hr
    exact infix_spells hleft (ne_end_of_productOp hop) (operand_spells hrec _ _ hright)
      (.binary · op left right.value) (fun _ => rfl) fun _ => trivial
termination_by s.left
decreasing_by exact Nat.lt_trans (Parsed.shorter _) (Parsed.shorter _)

theorem product_spells (hrec : SpellsAll source rec) (s : State) (h : s.left ≤ n)
    {r : Parsed s.left Expr} (hr : product source rec s h = .ok r) :
    Spells source s [.expr r.value] r.state := by
  obtain ⟨first, hfirst, hr⟩ := except_bind_ok hr
  exact factors_spells hrec h _ first.shorter (operand_spells hrec _ _ hfirst) hr

theorem terms_spells (hrec : SpellsAll source rec) (hmn : m ≤ n) {left : Expr} (s : State)
    (h : s.left < m) (hleft : Spells source s₀ [.expr left] s) {r : Parsed m Expr}
    (hr : terms source rec hmn left s h = .ok r) : Spells source s₀ [.expr r.value] r.state := by
  rw [terms] at hr
  split at hr
  · cases hr
    exact hleft
  · rename_i op hop
    obtain ⟨right, hright, hr⟩ := except_bind_ok hr
    refine terms_spells hrec hmn _ _ ?_ hr
    exact infix_spells hleft (ne_end_of_sumOp hop) (product_spells hrec _ _ hright)
      (.binary · op left right.value) (fun _ => rfl) fun _ => trivial
termination_by s.left
decreasing_by exact Nat.lt_trans (Parsed.shorter _) (Parsed.shorter _)

theorem sum_spells (hrec : SpellsAll source rec) (s : State) (h : s.left ≤ n)
    {r : Parsed s.left Expr} (hr : sum source rec s h = .ok r) :
    Spells source s [.expr r.value] r.state := by
  obtain ⟨first, hfirst, hr⟩ := except_bind_ok hr
  exact terms_spells hrec h _ first.shorter (product_spells hrec _ _ hfirst) hr

theorem exprWith_spells (hrec : SpellsAll source rec) (s : State) (h : s.left ≤ n)
    {r : Parsed s.left Expr} (hr : exprWith source rec s h = .ok r) :
    Spells source s [.expr r.value] r.state := by
  obtain ⟨target, htarget, hr⟩ := except_bind_ok hr
  have hspells := sum_spells hrec _ _ htarget
  dsimp only at hr
  split at hr
  · cases hr
    exact hspells
  · rename_i op hop
    obtain ⟨-, -, hr⟩ := except_bind_ok hr
    obtain ⟨value, hvalue, hr⟩ := except_bind_ok hr
    cases hr
    exact infix_spells hspells (ne_end_of_assignOp hop) (hrec _ _ _ hvalue)
      (.assign · op target.value value.value) (fun _ => rfl) fun _ => trivial

theorem expr_spells (s : State) {r : Parsed s.left Expr} (hr : expr source s = .ok r) :
    Spells source s [.expr r.value] r.state := by
  rw [expr] at hr
  exact exprWith_spells (fun t _ _ ht => expr_spells t ht) _ _ hr
termination_by s.left

end Expressions

/-! ### Statements -/

theorem Spells.stmt {st : Stmt} (h : Spells source s st.children t)
    (hplain : ∀ span name assignable initial, st ≠ .declare span name assignable initial) :
    Spells source s [.stmt st] t := by
  refine .phrase h ?_
  cases st with
  | declare => exact (hplain _ _ _ _ rfl).elim
  | _ => trivial

def SpellsBlock (source : List Char) {n : Nat} (rec : BlockBelow n) : Prop :=
  ∀ s h r, rec s h = .ok r → Spells source s (r.value.2.map .stmt) r.state

section Statements

variable {n : Nat} {rec : BlockBelow n}

theorem Spells.eat (h : Spells source s row t) (x : Symbol) : Spells source s row (t.eat x) := by
  have hrow := h.append (spells_eat t x)
  rwa [List.append_nil] at hrow

theorem initialValue_spells {constant : Bool} (s : State) (h : s.left < n)
    {r : Parsed n (Option Expr)} (hr : initialValue source constant s h = .ok r) :
    Spells source s (r.value.toList.map .expr) r.state := by
  unfold initialValue at hr
  split at hr
  · obtain ⟨value, hvalue, hr⟩ := except_bind_ok hr
    cases hr
    exact (spells_take _).append (expr_spells _ hvalue)
  · split at hr
    · cases hr
    · cases hr
      exact .refl s

/-- A declaration is read from its keyword on, which the name follows. -/
theorem declaration_spells {constant : Bool} {word : Keyword} (hword : s.kind = .keyword word)
    (h : s.kind ≠ .endOfInput) {r : Parsed (s.take h).state.left Stmt}
    (hr : declaration source constant s.current.span (s.take h).state = .ok r) :
    Spells source s [.stmt r.value] r.state := by
  unfold declaration at hr
  split at hr
  · rename_i name hname
    have hne := State.ne_end_of_eq hname (by simp)
    obtain ⟨initial, hinitial, hr⟩ := except_bind_ok hr
    cases hr
    have hspells := (((spells_take h).append (spells_take hne)).append
      (initialValue_spells _ _ hinitial)).eat .semicolon
    refine .phrase hspells ⟨word, s.current.span, (s.take h).state.current.span, _, rfl, ?_⟩
    have hfirst : s.current = ⟨.keyword word, s.current.span⟩ := by
      rw [← show s.current.kind = .keyword word from hword]
    have hsecond : (s.take h).state.current = ⟨.ident name, (s.take h).state.current.span⟩ := by
      rw [← show (s.take h).state.current.kind = .ident name from hname]
    rw [← hfirst, ← hsecond, (between_take h).ahead, (between_take hne).ahead]
    exact (List.prefix_append [s.current, (s.take h).state.current] _).isInfix
  · cases hr

theorem stmt_spells (hrec : SpellsBlock source rec) (s : State) (h : s.left ≤ n)
    {r : Parsed s.left Stmt} (hr : stmt source rec s h = .ok r) :
    Spells source s [.stmt r.value] r.state := by
  unfold stmt at hr
  dsimp only at hr
  split at hr
  · rename_i hkind
    cases hr
    exact (spells_take (State.ne_end_of_eq hkind (by simp))).stmt nofun
  · obtain ⟨body, hbody, hr⟩ := except_bind_ok hr
    cases hr
    exact ((spells_take _).append (hrec _ _ _ hbody)).stmt nofun
  -- The three words that declare a name are read alike.
  iterate 3
    · rename_i hkind
      obtain ⟨declared, hdeclared, hr⟩ := except_bind_ok hr
      cases hr
      exact declaration_spells hkind _ hdeclared
  · split at hr
    · cases hr
      exact ((spells_take _).eat .semicolon).stmt nofun
    · obtain ⟨value, hvalue, hr⟩ := except_bind_ok hr
      cases hr
      exact (((spells_take _).append (expr_spells _ hvalue)).eat .semicolon).stmt nofun
  · cases hr
  · split at hr
    · cases hr
    · obtain ⟨value, hvalue, hr⟩ := except_bind_ok hr
      cases hr
      exact ((expr_spells _ hvalue).eat .semicolon).stmt nofun

theorem stmts_spells (hrec : SpellsBlock source rec) (s : State) (h : s.left ≤ n)
    {r : Parsed s.left (List Stmt)} (hr : stmts source rec s h = .ok r) :
    Spells source s (r.value.map .stmt) r.state := by
  rw [stmts] at hr
  split at hr
  · rename_i hclose
    cases hr
    exact spells_take (State.ne_end_of_eq hclose (by simp))
  · split at hr
    · cases hr
    · obtain ⟨first, hfirst, hr⟩ := except_bind_ok hr
      obtain ⟨rest, hrest, hr⟩ := except_bind_ok hr
      cases hr
      exact (stmt_spells hrec _ _ hfirst).append (stmts_spells hrec _ _ hrest)
termination_by s.left
decreasing_by exact first.shorter

theorem blockRest_spells (s : State) {r : Parsed s.left (Nat × List Stmt)}
    (hr : blockRest source s = .ok r) : Spells source s (r.value.2.map .stmt) r.state := by
  rw [blockRest] at hr
  obtain ⟨body, hbody, hr⟩ := except_bind_ok hr
  cases hr
  have hspells := stmts_spells (fun t _ _ ht => blockRest_spells t ht) _ _ hbody
  exact ⟨hspells.names, hspells.ahead, hspells.written⟩
termination_by s.left

end Statements

/-! ### Procedures -/

section Procedures

theorem block_spells (s : State) {r : Parsed s.left ProcedureBody} (hr : block source s = .ok r) :
    Spells source s r.value.roots r.state := by
  obtain ⟨opened, hopened, hr⟩ := except_bind_ok hr
  obtain ⟨body, hbody, hr⟩ := except_bind_ok hr
  cases hr
  exact (spells_expect hopened).append (blockRest_spells _ hbody)

theorem params_spells (s : State) {r : Parsed s.left (List Param)} (hr : params s = .ok r) :
    Spells source s [] r.state := by
  rw [params] at hr
  split at hr
  · rename_i hclose
    cases hr
    exact spells_take (State.ne_end_of_eq hclose (by simp))
  · split at hr
    · dsimp only at hr
      split at hr
      · obtain ⟨rest, hrest, hr⟩ := except_bind_ok hr
        cases hr
        exact (spells_take _).append ((spells_take _).append (params_spells _ hrest))
      · obtain ⟨closed, hclosed, hr⟩ := except_bind_ok hr
        cases hr
        exact (spells_take _).append (spells_expect hclosed)
    · cases hr
termination_by s.left
decreasing_by exact Nat.lt_trans (Parsed.shorter _) (Parsed.shorter _)

theorem params_written (s : State) {r : Parsed s.left (List Param)} (hr : params s = .ok r) :
    ∀ x ∈ r.value, ⟨.ident x.name, x.span⟩ ∈ s.cursor.ahead := by
  rw [params] at hr
  split at hr
  · cases hr
    exact List.forall_mem_nil _
  · split at hr
    · rename_i name hkind
      have hne := State.ne_end_of_eq hkind (by simp)
      have hfirst := ident_mem hkind
      dsimp only at hr
      split at hr
      · rename_i hcomma
        have hneComma := State.ne_end_of_eq hcomma (by simp)
        have hsuffix := (take_suffix hneComma).trans (take_suffix hne)
        obtain ⟨rest, hrest, hr⟩ := except_bind_ok hr
        cases hr
        refine List.forall_mem_cons.mpr ⟨hfirst, fun x hx => ?_⟩
        exact hsuffix.subset (params_written _ hrest x hx)
      · obtain ⟨closed, hclosed, hr⟩ := except_bind_ok hr
        cases hr
        exact List.forall_mem_singleton.mpr hfirst
    · cases hr
termination_by s.left
decreasing_by exact Nat.lt_trans (Parsed.shorter _) (Parsed.shorter _)

theorem arrowBody_spells (s : State) {r : Parsed s.left ProcedureBody}
    (hr : arrowBody source s = .ok r) : Spells source s r.value.roots r.state := by
  unfold arrowBody at hr
  split at hr
  · exact block_spells s hr
  · obtain ⟨value, hvalue, hr⟩ := except_bind_ok hr
    cases hr
    exact expr_spells s hvalue

theorem signature_spells (s : State) {r : Parsed s.left (List Param × ProcedureBody)}
    (hr : signature source s = .ok r) : Spells source s r.value.2.roots r.state := by
  unfold signature at hr
  split at hr
  · obtain ⟨opened, hopened, hr⟩ := except_bind_ok hr
    obtain ⟨list, hlist, hr⟩ := except_bind_ok hr
    obtain ⟨body, hbody, hr⟩ := except_bind_ok hr
    cases hr
    exact ((((spells_take _).append (spells_ident _)).append (spells_expect hopened)).append
      (params_spells _ hlist)).append (block_spells _ hbody)
  · obtain ⟨list, hlist, hr⟩ := except_bind_ok hr
    obtain ⟨arrow, harrow, hr⟩ := except_bind_ok hr
    obtain ⟨body, hbody, hr⟩ := except_bind_ok hr
    cases hr
    exact (((spells_take _).append (params_spells _ hlist)).append (spells_expect harrow)).append
      (arrowBody_spells _ hbody)
  · dsimp only at hr
    split at hr
    · obtain ⟨body, hbody, hr⟩ := except_bind_ok hr
      cases hr
      exact ((spells_take _).append (spells_take _)).append (arrowBody_spells _ hbody)
    · cases hr
  · cases hr

theorem signature_params (s : State) {r : Parsed s.left (List Param × ProcedureBody)}
    (hr : signature source s = .ok r) :
    ∀ x ∈ r.value.1, ⟨.ident x.name, x.span⟩ ∈ s.cursor.ahead := by
  unfold signature at hr
  split at hr
  · rename_i hkind
    have hne := State.ne_end_of_eq hkind (by simp)
    obtain ⟨opened, hopened, hr⟩ := except_bind_ok hr
    obtain ⟨list, hlist, hr⟩ := except_bind_ok hr
    obtain ⟨body, hbody, hr⟩ := except_bind_ok hr
    cases hr
    have hopen : Spells source s [] opened.state :=
      ((spells_take hne).append (spells_ident _)).append (spells_expect hopened)
    exact fun x hx => hopen.ahead.subset (params_written _ hlist x hx)
  · rename_i hkind
    have hne := State.ne_end_of_eq hkind (by simp)
    obtain ⟨list, hlist, hr⟩ := except_bind_ok hr
    obtain ⟨arrow, harrow, hr⟩ := except_bind_ok hr
    obtain ⟨body, hbody, hr⟩ := except_bind_ok hr
    cases hr
    exact fun x hx => (take_suffix hne).subset (params_written _ hlist x hx)
  · rename_i name hkind
    dsimp only at hr
    split at hr
    · obtain ⟨body, hbody, hr⟩ := except_bind_ok hr
      cases hr
      exact List.forall_mem_singleton.mpr (ident_mem hkind)
    · cases hr
  · cases hr

/-- What is said in a procedure is written in the tokens that it is read from, in the names of the
procedure. -/
theorem procedure_spells {s : State} {p : Procedure} (hp : procedure source s = .ok p) :
    s.names.Extends p.names ∧ p.source = source ∧
      (∀ x ∈ p.params, ⟨.ident x.name, x.span⟩ ∈ s.cursor.ahead) ∧
      ∀ q ∈ p.phrases, q.WrittenIn source s.cursor.ahead p.names := by
  obtain ⟨whole, hwhole, hp⟩ := except_bind_ok hp
  dsimp only at hp
  split at hp
  · cases hp
    have hspells := (signature_spells s hwhole).eat .semicolon
    refine ⟨hspells.names, rfl, signature_params s hwhole, fun x hx => ?_⟩
    rw [Procedure.phrases, ProcedureBody.phrases_eq] at hx
    obtain ⟨q, hq, hx⟩ := List.mem_flatMap.mp hx
    exact hspells.written q hq x hx
  · cases hp

end Procedures

end Parser

/-- What is said in a procedure is written in the tokens of its source. -/
theorem Procedure.parse_written {source : String} {p : Procedure} (h : parse source = .ok p) :
    ∃ tokens names, Token.ofSource source .initial = .ok (tokens, names) ∧
      names.Extends p.names ∧ p.source = source.toList ∧
      (∀ x ∈ p.params, ⟨.ident x.name, x.span⟩ ∈ tokens) ∧
      ∀ q ∈ p.phrases, q.WrittenIn source.toList tokens p.names := by
  rw [parse] at h
  split at h
  · cases h
  · rename_i tokens names hlex
    exact ⟨tokens, names, hlex, Parser.procedure_spells h⟩

/-- What is said in a procedure is said by the tokens of its source. -/
theorem Procedure.parse_said {source : String} {p : Procedure} (h : parse source = .ok p) :
    ∃ tokens names, Token.ofSource source .initial = .ok (tokens, names) ∧
      names.Extends p.names ∧ p.source = source.toList ∧
      ∀ e, .expr e ∈ p.phrases → e.SaidBy source.toList tokens p.names := by
  obtain ⟨tokens, names, hlex, hextends, hsource, -, hwritten⟩ := parse_written h
  exact ⟨tokens, names, hlex, hextends, hsource, fun e he => (hwritten _ he).said⟩

end PathCopy
