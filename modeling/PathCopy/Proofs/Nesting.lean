import PathCopy.Proofs.Building
import PathCopy.Proofs.Tiling

/-!
Spans nest: a phrase stands from the start of one token to the end of another, the phrases inside it
stand between these two, and side by side they do not overlap.
-/

namespace PathCopy

/-- A span that begins where a token does and ends where a token does. -/
def Span.Drawn (span : Span) (tokens : List Token) : Prop :=
  (∃ token ∈ tokens, token.span.start = span.start) ∧
    ∃ token ∈ tokens, token.span.stop = span.stop

theorem Span.Drawn.mono {span : Span} {ts us : List Token} (h : span.Drawn ts) (hsub : ts ⊆ us) :
    span.Drawn us := by
  obtain ⟨⟨first, hfirst, hstart⟩, last, hlast, hstop⟩ := h
  exact ⟨⟨first, hsub hfirst, hstart⟩, last, hsub hlast, hstop⟩

theorem Span.drawn_of_mem {token : Token} {tokens : List Token} (h : token ∈ tokens) :
    token.span.Drawn tokens :=
  ⟨⟨token, h, rfl⟩, token, h, rfl⟩

/-- A phrase begins and ends with a token, and its children stand inside it one after the other. -/
structure Phrase.Nested (tokens : List Token) (q : Phrase) : Prop where
  drawn : q.span.Drawn tokens
  proper : q.span.start ≤ q.span.stop
  inside : ∀ c ∈ q.children, q.span.start ≤ c.span.start ∧ c.span.stop ≤ q.span.stop
  apart : q.children.Pairwise fun c d => c.span.stop ≤ d.span.start

theorem Phrase.Nested.mono {q : Phrase} {ts us : List Token} (h : q.Nested ts) (hsub : ts ⊆ us) :
    q.Nested us :=
  ⟨h.drawn.mono hsub, h.proper, h.inside, h.apart⟩

/-- Tokens in the order of the source. -/
structure Token.Ordered (tokens : List Token) : Prop where
  proper : ∀ token ∈ tokens, token.span.start ≤ token.span.stop
  apart : tokens.Pairwise fun t u => t.span.stop ≤ u.span.start

namespace Token.Ordered

variable {tokens ts us : List Token} {t u : Token}

theorem left (h : Ordered (ts ++ us)) : Ordered ts :=
  ⟨fun t ht => h.proper t (List.mem_append_left _ ht), (List.pairwise_append.mp h.apart).1⟩

theorem right (h : Ordered (ts ++ us)) : Ordered us :=
  ⟨fun t ht => h.proper t (List.mem_append_right _ ht), (List.pairwise_append.mp h.apart).2.1⟩

theorem head_le (h : Ordered (t :: ts)) (hu : u ∈ t :: ts) :
    t.span.start ≤ u.span.start ∧ t.span.stop ≤ u.span.stop := by
  rcases List.mem_cons.mp hu with rfl | hu
  · exact ⟨le_rfl, le_rfl⟩
  · have hapart := (List.pairwise_cons.mp h.apart).1 u hu
    have ht := h.proper t List.mem_cons_self
    have hu := h.proper u (List.mem_cons_of_mem _ hu)
    omega

theorem le_last (h : Ordered (ts ++ [t])) (hu : u ∈ ts ++ [t]) :
    u.span.start ≤ t.span.start ∧ u.span.stop ≤ t.span.stop := by
  rcases List.mem_append.mp hu with hu | hu
  · have hapart := (List.pairwise_append.mp h.apart).2.2 u hu t (List.mem_singleton_self t)
    have ht := h.proper t (List.mem_append_right _ (List.mem_singleton_self t))
    have hu := h.proper u (List.mem_append_left _ hu)
    omega
  · obtain rfl := List.mem_singleton.mp hu
    exact ⟨le_rfl, le_rfl⟩

end Token.Ordered

namespace Parser

variable {s t u : State} {row ps qs : List Phrase} {k : Nat} {tokens ts us : List Token}

/-! ### Phrases side by side -/

structure Spread (tokens : List Token) (row : List Phrase) : Prop where
  drawn : ∀ q ∈ row, q.span.Drawn tokens
  proper : ∀ q ∈ row, q.span.start ≤ q.span.stop
  apart : row.Pairwise fun q r => q.span.stop ≤ r.span.start

theorem Spread.nil : Spread tokens [] := ⟨by simp, by simp, .nil⟩

theorem Spread.append (h : Token.Ordered (ts ++ us)) (hp : Spread ts ps) (hq : Spread us qs) :
    Spread (ts ++ us) (ps ++ qs) where
  drawn := List.forall_mem_append.mpr
    ⟨fun q hmem => (hp.drawn q hmem).mono (List.subset_append_left ts us),
      fun q hmem => (hq.drawn q hmem).mono (List.subset_append_right ts us)⟩
  proper := List.forall_mem_append.mpr ⟨hp.proper, hq.proper⟩
  apart := by
    refine List.pairwise_append.mpr ⟨hp.apart, hq.apart, fun q hmem r hmem' => ?_⟩
    obtain ⟨-, token, htoken, hstop⟩ := hp.drawn q hmem
    obtain ⟨⟨token', htoken', hstart⟩, -⟩ := hq.drawn r hmem'
    have := (List.pairwise_append.mp h.apart).2.2 token htoken token' htoken'
    omega

theorem Spread.first {q : Phrase} (h : Spread tokens row) (hq : q ∈ row.head?) :
    q ∈ row ∧ ∀ r ∈ row, q.span.start ≤ r.span.start ∧ q.span.stop ≤ r.span.stop := by
  obtain ⟨rest, rfl⟩ := List.head?_eq_some_iff.mp hq
  refine ⟨List.mem_cons_self, fun r hr => ?_⟩
  rcases List.mem_cons.mp hr with rfl | hr
  · exact ⟨le_rfl, le_rfl⟩
  · have hapart := (List.pairwise_cons.mp h.apart).1 r hr
    have hq := h.proper q List.mem_cons_self
    have hr := h.proper r (List.mem_cons_of_mem _ hr)
    omega

theorem Spread.last {q : Phrase} (h : Spread tokens row) (hq : q ∈ row.getLast?) :
    q ∈ row ∧ ∀ r ∈ row, r.span.start ≤ q.span.start ∧ r.span.stop ≤ q.span.stop := by
  obtain ⟨rest, rfl⟩ := List.getLast?_eq_some_iff.mp hq
  refine ⟨List.mem_append_right _ (List.mem_singleton_self q), fun r hr => ?_⟩
  rcases List.mem_append.mp hr with hr | hr
  · have hapart := (List.pairwise_append.mp h.apart).2.2 r hr q (List.mem_singleton_self q)
    have hq := h.proper q (List.mem_append_right _ (List.mem_singleton_self q))
    have hr := h.proper r (List.mem_append_left _ hr)
    omega
  · obtain rfl := List.mem_singleton.mp hr
    exact ⟨le_rfl, le_rfl⟩

section Frames

variable {span : Span}

/-- The current token lies before everything that is drawn from the tokens consumed after it. -/
theorem Between.current_le (h : Between s t tokens) (ho : Token.Ordered tokens)
    (hne : tokens ≠ []) : s.current.span.Drawn tokens ∧ ∀ x : Span, x.Drawn tokens →
      s.current.span.start ≤ x.start ∧ s.current.span.stop ≤ x.stop := by
  obtain ⟨token, rest, rfl⟩ := List.exists_cons_of_ne_nil hne
  rw [h.current]
  refine ⟨Span.drawn_of_mem List.mem_cons_self, fun x hx => ?_⟩
  obtain ⟨⟨first, hfirst, hstart⟩, last, hlast, hstop⟩ := hx
  have := ho.head_le hfirst
  have := ho.head_le hlast
  omega

/-- The token consumed last lies after everything that is drawn from the tokens consumed. -/
theorem Between.le_previousSpan (h : Between s t tokens) (ho : Token.Ordered tokens)
    (hne : tokens ≠ []) : t.previousSpan.Drawn tokens ∧ ∀ x : Span, x.Drawn tokens →
      x.start ≤ t.previousSpan.start ∧ x.stop ≤ t.previousSpan.stop := by
  obtain ⟨rest, token, rfl⟩ := (List.eq_nil_or_concat' tokens).resolve_left hne
  rw [h.previousSpan]
  have hmem : token ∈ rest ++ [token] := List.mem_append_right _ (List.mem_singleton_self token)
  refine ⟨Span.drawn_of_mem hmem, fun x hx => ?_⟩
  obtain ⟨⟨first, hfirst, hstart⟩, last, hlast, hstop⟩ := hx
  have := ho.le_last hfirst
  have := ho.le_last hlast
  omega

theorem Between.current_proper (h : Between s t tokens) (ho : Token.Ordered tokens)
    (hne : tokens ≠ []) : s.current.span.start ≤ s.current.span.stop := by
  obtain ⟨token, rest, rfl⟩ := List.exists_cons_of_ne_nil hne
  rw [h.current]
  exact ho.proper token List.mem_cons_self

/-- A span that frames a row is drawn from the tokens, and the row lies inside it. -/
theorem Frames.drawn (hframes : Frames s row t span) (h : Spread tokens row)
    (hbetween : Between s t tokens) (ho : Token.Ordered tokens) (hne : tokens ≠ []) :
    span.Drawn tokens ∧ span.start ≤ span.stop ∧
      ∀ q ∈ row, span.start ≤ q.span.start ∧ q.span.stop ≤ span.stop := by
  obtain ⟨left, right, rfl, hleft, hright⟩ := hframes
  have hcurrent := hbetween.current_le ho hne
  have hprevious := hbetween.le_previousSpan ho hne
  have hl : left.Drawn tokens ∧ left.start ≤ left.stop ∧
      ∀ q ∈ row, left.start ≤ q.span.start ∧ left.stop ≤ q.span.stop := by
    rcases hleft with rfl | hfirst
    · exact ⟨hcurrent.1, hbetween.current_proper ho hne,
        fun q hq => hcurrent.2 _ (h.drawn q hq)⟩
    · obtain ⟨q, hq, rfl⟩ := Option.map_eq_some_iff.mp hfirst
      obtain ⟨hmem, hle⟩ := h.first hq
      exact ⟨h.drawn q hmem, h.proper q hmem, hle⟩
  have hr : right.Drawn tokens ∧
      ∀ q ∈ row, q.span.start ≤ right.start ∧ q.span.stop ≤ right.stop := by
    rcases hright with rfl | hlast
    · exact ⟨hprevious.1, fun q hq => hprevious.2 _ (h.drawn q hq)⟩
    · obtain ⟨q, hq, rfl⟩ := Option.map_eq_some_iff.mp hlast
      obtain ⟨hmem, hle⟩ := h.last hq
      exact ⟨h.drawn q hmem, hle⟩
  -- The ends come in order, so the merged span goes from the left one to the right one.
  have hlr : left.start ≤ right.start ∧ left.stop ≤ right.stop := by
    rcases hleft with rfl | hfirst
    · exact hcurrent.2 right hr.1
    · obtain ⟨q, hq, rfl⟩ := Option.map_eq_some_iff.mp hfirst
      exact hr.2 q (h.first hq).1
  have hmerge : left.merge right = ⟨left.start, right.stop⟩ := by
    simp only [Span.merge, Nat.min_eq_left hlr.1, Nat.max_eq_right hlr.2]
  rw [hmerge]
  refine ⟨⟨hl.1.1, hr.1.2⟩, hl.2.1.trans hlr.2, fun q hq => ?_⟩
  exact ⟨(hl.2.2 q hq).1, (hr.2 q hq).2⟩

end Frames

structure NestedRow (tokens : List Token) (row : List Phrase) : Prop where
  spread : Spread tokens row
  nested : ∀ q ∈ row, ∀ r ∈ q.all, r.Nested tokens

theorem NestedRow.nil : NestedRow tokens [] := ⟨.nil, by simp⟩

theorem NestedRow.append (h : Token.Ordered (ts ++ us)) (hp : NestedRow ts ps)
    (hq : NestedRow us qs) : NestedRow (ts ++ us) (ps ++ qs) where
  spread := hp.spread.append h hq.spread
  nested := List.forall_mem_append.mpr
    ⟨fun q hmem r hr => (hp.nested q hmem r hr).mono (List.subset_append_left ts us),
      fun q hmem r hr => (hq.nested q hmem r hr).mono (List.subset_append_right ts us)⟩

/-- A phrase is nested if its span frames the row of its children, and these are nested. -/
theorem NestedRow.parent {q : Phrase} (h : NestedRow tokens q.children)
    (hframes : Frames s q.children t q.span) (hbetween : Between s t tokens)
    (ho : Token.Ordered tokens) (hne : tokens ≠ []) : NestedRow tokens [q] := by
  obtain ⟨hdrawn, hproper, hinside⟩ := hframes.drawn h.spread hbetween ho hne
  constructor
  · exact ⟨by simpa using hdrawn, by simpa using hproper, List.pairwise_singleton ..⟩
  · intro q' hq' r hr
    obtain rfl := List.mem_singleton.mp hq'
    rcases Phrase.mem_all_iff.mp hr with rfl | ⟨c, hc, hr⟩
    · exact ⟨hdrawn, hproper, hinside, h.spread.apart⟩
    · exact h.nested c hc r hr

theorem NestedRow.children {q : Phrase} (h : NestedRow tokens [q]) :
    NestedRow tokens q.children := by
  have hall : ∀ r ∈ q.all, r.Nested tokens := h.nested q (List.mem_singleton_self q)
  have hchild : ∀ c ∈ q.children, ∀ r ∈ c.all, r.Nested tokens := fun c hc r hr =>
    hall r (Phrase.mem_all_iff.mpr (.inr ⟨c, hc, hr⟩))
  have hself : ∀ c ∈ q.children, c.Nested tokens := fun c hc => hchild c hc c c.mem_all_self
  exact ⟨⟨fun c hc => (hself c hc).drawn, fun c hc => (hself c hc).proper,
    (hall q q.mem_all_self).apart⟩, hchild⟩

/-- Whatever is completed from ordered tokens is nested. -/
theorem Completes.nested (h : Completes s row k t) (hbetween : Between s t tokens)
    (ho : Token.Ordered tokens) : NestedRow tokens row := by
  induction h generalizing tokens with
  | nil | names | take => exact .nil
  | append hst htu ihst ihtu =>
      obtain ⟨ts, hts, -⟩ := hst.between
      obtain ⟨us, hus, -⟩ := htu.between
      obtain rfl := hbetween.unique (hts.append hus)
      exact (ihst hts ho.left).append ho (ihtu hus ho.right)
  | @expr s t k e h hframes _ ih =>
      have hb : Between s t tokens := ⟨hbetween.ahead, hbetween.behind, hbetween.words⟩
      exact (ih hb ho).parent hframes hb ho (h.tokens_ne_nil hb (by omega))
  | stmt h hframes _ ih =>
      exact (ih hbetween ho).parent hframes hbetween ho (h.tokens_ne_nil hbetween (by omega))
  | exprStmt h hframes ih =>
      refine (ih hbetween ho).parent hframes hbetween ho (h.tokens_ne_nil hbetween ?_)
      simp only [List.length_singleton]
      omega
  | @block s t k body span h hframes ih =>
      have hb : Between s t tokens := ⟨hbetween.ahead, hbetween.behind, hbetween.words⟩
      exact (ih hb ho).parent hframes hb ho (h.tokens_ne_nil hb (by omega))

/-- The phrase that a body is, and with it what the body consists of, is nested. -/
theorem BuildsBody.nested {body : ProcedureBody} (h : BuildsBody s body u)
    (ho : Token.Ordered s.cursor.ahead) :
    ∃ tokens, Between s u tokens ∧ Token.Ordered tokens ∧ tokens ≠ [] ∧
      NestedRow tokens body.roots := by
  obtain ⟨root, hroot, k, h⟩ := h
  obtain ⟨tokens, hbetween, hlength⟩ := h.between
  rw [hbetween.ahead] at ho
  have hrow := h.nested hbetween ho.left
  have hne : tokens ≠ [] := h.tokens_ne_nil hbetween (by simp only [List.length_singleton]; omega)
  refine ⟨tokens, hbetween, ho.left, hne, ?_⟩
  cases body with
  | expr value =>
      obtain rfl := hroot
      exact hrow
  | block first body =>
      obtain ⟨span, rfl⟩ := hroot
      exact hrow.children

end Parser

/-- Spans nest in a procedure that is read from `words`: each phrase stands from one word to another
with its children inside, and inside the procedure. -/
structure Procedure.SpansNest (p : Procedure) (words : List Token) : Prop where
  nested : ∀ q ∈ p.phrases, q.Nested words
  inside : ∀ q ∈ p.phrases, p.span.start ≤ q.span.start ∧ q.span.stop ≤ p.span.stop
  apart : p.body.roots.Pairwise fun q r => q.span.stop ≤ r.span.start

theorem Procedure.SpansNest.mono {p : Procedure} {ts us : List Token} (h : p.SpansNest ts)
    (hsub : ts ⊆ us) : p.SpansNest us :=
  ⟨fun q hq => (h.nested q hq).mono hsub, h.inside, h.apart⟩

theorem Parser.procedure_spansNest {source : List Char} {s : State} {p : Procedure}
    (hp : Parser.procedure source s = .ok p) (ho : Token.Ordered s.cursor.ahead) :
    ∃ tokens, (∃ rest, s.cursor.ahead = tokens ++ rest) ∧
      (∀ token ∈ tokens, token.kind ≠ .endOfInput) ∧ p.SpansNest tokens := by
  obtain ⟨u, hbody, -, -, hspan⟩ := procedure_builds hp
  obtain ⟨tokens, hbetween, ho, hne, hrow⟩ := hbody.nested ho
  have hnested : ∀ q ∈ p.phrases, q.Nested tokens := by
    intro q hq
    rw [Procedure.phrases, ProcedureBody.phrases_eq] at hq
    obtain ⟨root, hroot, hq⟩ := List.mem_flatMap.mp hq
    exact hrow.nested root hroot q hq
  refine ⟨tokens, ⟨_, hbetween.ahead⟩, hbetween.words, hnested, fun q hq => ?_, hrow.spread.apart⟩
  have hcurrent := (hbetween.current_le ho hne).2 _ (hnested q hq).drawn
  have hprevious := (hbetween.le_previousSpan ho hne).2 _ (hnested q hq).drawn
  rw [hspan]
  simp only [Span.merge]
  omega

theorem Token.ofSource_ordered {source : String} {names names' : NameTable} {tokens : List Token}
    (h : Token.ofSource source names = .ok (tokens, names')) :
    Token.Ordered tokens ∧ ∃ words stop, tokens = words ++ [⟨.endOfInput, stop⟩] ∧
      ∀ word ∈ words, word.kind ≠ .endOfInput := by
  obtain ⟨lexemes, hscan, hresult⟩ := except_map_ok h
  obtain ⟨rfl, -⟩ := Prod.mk.inj hresult
  obtain ⟨q, hcuts⟩ := Lexeme.scan_ok hscan
  obtain ⟨-, hstop, hproper, hapart⟩ := hcuts.ordered
  have hspans := ofLexemes_spans names lexemes
  obtain rfl : utf8Length source.toList = q := (Nat.zero_add _).symm.trans hstop
  have hword : ∀ word ∈ (ofLexemes names lexemes).1, word.span.start ≤ word.span.stop ∧
      word.span.stop ≤ min (utf8Length source.toList) Span.limit := by
    intro word hword
    have hmem : word.span ∈ lexemes.map Prod.snd := hspans ▸ List.mem_map_of_mem hword
    obtain ⟨x, hx, hxspan⟩ := List.mem_map.mp hmem
    exact hxspan ▸ (hproper x hx).2
  refine ⟨⟨?_, ?_⟩, _, _, rfl, ofLexemes_not_endOfInput names lexemes⟩
  · refine List.forall_mem_append.mpr ⟨fun word hmem => (hword word hmem).1, ?_⟩
    exact List.forall_mem_singleton.mpr le_rfl
  · refine List.pairwise_append.mpr ⟨?_, List.pairwise_singleton .., fun word hmem last hlast => ?_⟩
    · rw [← List.pairwise_map (R := fun x y : Span => x.stop ≤ y.start), hspans]
      exact List.pairwise_map.mpr hapart
    · obtain rfl := List.mem_singleton.mp hlast
      exact (hword word hmem).2

/-- The spans of everything that is read from a source nest. -/
theorem Procedure.parse_spansNest {source : String} {p : Procedure}
    (h : Procedure.parse source = .ok p) :
    ∃ words stop names,
      Token.ofSource source .initial = .ok (words ++ [⟨.endOfInput, stop⟩], names) ∧
      (∀ word ∈ words, word.kind ≠ .endOfInput) ∧ p.SpansNest words := by
  unfold Procedure.parse at h
  split at h
  · cases h
  · rename_i tokens names htokens
    obtain ⟨ho, words, stop, rfl, hwords⟩ := Token.ofSource_ordered htokens
    obtain ⟨ts, ⟨rest, hrest⟩, hts, hnest⟩ := Parser.procedure_spansNest h ho
    refine ⟨words, stop, names, htokens, hwords, hnest.mono fun token htoken => ?_⟩
    have hmem : token ∈ words ++ [⟨.endOfInput, stop⟩] := by
      have hahead : words ++ [⟨.endOfInput, stop⟩] = ts ++ rest := hrest
      rw [hahead]
      exact List.mem_append_left _ htoken
    rcases List.mem_append.mp hmem with hmem | hmem
    · exact hmem
    · obtain rfl := List.mem_singleton.mp hmem
      exact absurd rfl (hts _ htoken)

theorem Procedure.parse_spansNest_arrow : ∃ p, Procedure.parse "s => (s.a)" = .ok p ∧
    ∃ words stop names,
      Token.ofSource "s => (s.a)" .initial = .ok (words ++ [⟨.endOfInput, stop⟩], names) ∧
      (∀ word ∈ words, word.kind ≠ .endOfInput) ∧ p.SpansNest words := by
  have hsome : (Procedure.parse "s => (s.a)").toOption.isSome = true := by decide +kernel
  obtain ⟨p, hp⟩ := Option.isSome_iff_exists.mp hsome
  have hp := eq_ok_of_mem_toOption hp
  exact ⟨p, hp, Procedure.parse_spansNest hp⟩

end PathCopy
