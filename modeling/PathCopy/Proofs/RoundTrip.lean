import PathCopy.Proofs.Reading

/-!
What is written is read again. The tokens that a procedure is written with are parsed to the same
procedure, up to the places of its phrases: the parentheses that the writer leaves out are those
that the parser does not need.
-/

namespace PathCopy

open PathCopy.Parser

variable {source : List Char} {names : NameTable} {w : Wording}

/-! ### Expressions -/

theorem Expr.level_le_five (e : Expr) : e.level ≤ 5 := by
  unfold level
  split
  · omega
  · next op _ _ => cases op <;> decide
  all_goals omega

/-- Parentheses make an expression fit wherever one is asked for. -/
theorem Parser.Reads.within {e : Expr} {level : Nat} {row : Bool → List TokenKind}
    (h : ∀ b, Reads source names e.level e (row b)) (hlevel : level ≤ 5) (start : Bool) :
    Reads source names level e (e.within level start row) := by
  unfold Expr.within
  split
  · have hinner : Reads source names 0 e (row false) :=
      (h false).mono (Nat.zero_le _) e.level_le_five
    exact hinner.parens.mono hlevel (Nat.le_refl 5)
  · next hplain =>
    exact (h start).mono (Nat.le_of_not_lt fun hlt => hplain (.inl hlt)) e.level_le_five

def AllProper (es : List Expr) : Prop := ∀ e ∈ es, (Phrase.expr e).isProper

theorem allProper_cons {e : Expr} {es : List Expr} :
    AllProper (e :: es) ↔ (Phrase.expr e).isProper ∧ AllProper es := List.forall_mem_cons

theorem allProper_append {es es' : List Expr} :
    AllProper (es ++ es') ↔ AllProper es ∧ AllProper es' := List.forall_mem_append

mutual

theorem Expr.reads (hnodup : names.texts.toList.Nodup) (e : Expr) (hproper : AllProper e.nodes)
    (start : Bool) : Reads source names e.level e (e.tokens w names start) := by
  cases e with
  | number site bits => exact reads_leaf (.number · bits) rfl fun _ => rfl
  | string site text => exact reads_leaf (.string · text) rfl fun _ => rfl
  | bool site value =>
      cases value with
      | false => exact reads_leaf (.bool · false) rfl fun _ => rfl
      | true => exact reads_leaf (.bool · true) rfl fun _ => rfl
  | null site => exact reads_leaf .null rfl fun _ => rfl
  | undefined site => exact reads_leaf .undefined rfl fun _ => rfl
  | ident site name => exact reads_leaf (.ident · name) rfl fun _ => rfl
  | member site base property =>
      obtain ⟨-, hbase⟩ := allProper_cons.mp hproper
      exact reads_member hnodup (.within (base.reads hnodup hbase) (Nat.le_refl 5) start)
  | index site base key =>
      obtain ⟨-, hrest⟩ := allProper_cons.mp hproper
      obtain ⟨hbase, hkey⟩ := allProper_append.mp hrest
      exact reads_index (.within (base.reads hnodup hbase) (Nat.le_refl 5) start)
        (.within (key.reads hnodup hkey) (Nat.zero_le 5) false)
  | call site callee args =>
      obtain ⟨-, hrest⟩ := allProper_cons.mp hproper
      obtain ⟨hcallee, hargs⟩ := allProper_append.mp hrest
      exact reads_call (.within (callee.reads hnodup hcallee) (Nat.le_refl 5) start)
        (Expr.readsList hnodup args hargs)
  | assign site op target value =>
      obtain ⟨htarget, hrest⟩ := allProper_cons.mp hproper
      obtain ⟨ht, hv⟩ := allProper_append.mp hrest
      have hleft : Reads source names 5 target (target.within 5 start (target.tokens w names ·)) :=
        .within (target.reads hnodup ht) (Nat.le_refl 5) start
      exact reads_assign htarget (hleft.mono (by decide) (Nat.le_refl 5))
        (.within (value.reads hnodup hv) (Nat.zero_le 5) false)
  | step site op fixity target =>
      obtain ⟨htarget, ht⟩ := allProper_cons.mp hproper
      cases fixity with
      | before =>
          have hright : Reads source names 5 target
              (target.within 5 false (target.tokens w names ·)) :=
            .within (target.reads hnodup ht) (Nat.le_refl 5) false
          exact reads_step_before htarget (hright.mono (by decide) (Nat.le_refl 5))
      | after =>
          exact reads_step_after htarget (.within (target.reads hnodup ht) (Nat.le_refl 5) start)
  | binary site op left right =>
      obtain ⟨-, hrest⟩ := allProper_cons.mp hproper
      obtain ⟨hl, hr⟩ := allProper_append.mp hrest
      have hlevel : op.level = 1 ∨ op.level = 2 := by cases op <;> decide
      -- The left operand may be of the level of the operator, the right one has to be above it.
      have hleft : Reads source names op.level left
          (left.within op.level start (left.tokens w names ·)) :=
        .within (left.reads hnodup hl) (by omega) start
      have hright : Reads source names (op.level + 1) right
          (right.within (op.level + 1) false (right.tokens w names ·)) :=
        .within (right.reads hnodup hr) (by omega) false
      show Reads source names op.level _ (_ ++ _ :: _)
      rcases hlevel with hop | hop
      · rw [hop] at hleft hright ⊢
        exact reads_sum hop hleft hright
      · rw [hop] at hleft hright ⊢
        exact reads_product hop hleft hright
  | unary site op operand =>
      obtain ⟨-, hoperand⟩ := allProper_cons.mp hproper
      exact reads_unary (.within (operand.reads hnodup hoperand) (by decide) false)
  | array site items =>
      obtain ⟨-, hitems⟩ := allProper_cons.mp hproper
      exact reads_array (Expr.readsList hnodup items hitems)
  | object site entries =>
      obtain ⟨-, hentries⟩ := allProper_cons.mp hproper
      exact reads_object hnodup (Expr.readsEntries hnodup entries hentries)

theorem Expr.readsList (hnodup : names.texts.toList.Nodup) (es : List Expr)
    (hproper : AllProper (Expr.nodesOfList es)) :
    ∀ e ∈ es, Reads source names 0 e (e.write w names false) := by
  cases es with
  | nil => simp
  | cons e es =>
      obtain ⟨he, hes⟩ := allProper_append.mp hproper
      refine List.forall_mem_cons.mpr ⟨?_, Expr.readsList hnodup es hes⟩
      exact .within (e.reads hnodup he) (Nat.zero_le 5) false

theorem Expr.readsEntries (hnodup : names.texts.toList.Nodup) (ps : List Property)
    (hproper : AllProper (Expr.nodesOfEntries ps)) :
    ∀ p ∈ ps, Reads source names 0 p.value (p.value.write w names false) := by
  cases ps with
  | nil => simp
  | cons p ps =>
      obtain ⟨key, span, value⟩ := p
      obtain ⟨hvalue, hps⟩ := allProper_append.mp hproper
      refine List.forall_mem_cons.mpr ⟨?_, Expr.readsEntries hnodup ps hps⟩
      exact .within (value.reads hnodup hvalue) (Nat.zero_le 5) false

end

theorem Expr.reads_write (hnodup : names.texts.toList.Nodup) (e : Expr)
    (hproper : AllProper e.nodes) (start : Bool) :
    Reads source names 0 e (e.write w names start) :=
  .within (e.reads hnodup hproper) (Nat.zero_le 5) start

/-! ### Statements -/

abbrev Parser.blocks (source : List Char) (n : Nat) : BlockBelow n := fun t _ => blockRest source t

def AllProperPhrases (ps : List Phrase) : Prop := ∀ p ∈ ps, p.isProper

theorem allProperPhrases_map {es : List Expr} :
    AllProperPhrases (es.map .expr) ↔ AllProper es := List.forall_mem_map

variable {n : Nat} {st : State} {rest : List TokenKind}

theorem opens_stmt {k : TokenKind} (hk : k.opens) (hbrace : k ≠ .symbol .lbrace) (h : st.left ≤ n)
    (hs : st.At names (k :: rest)) :
    stmt source (blocks source n) st h = (do
      let value ← expr source st
      let done := value.eat .semicolon
      .ok ⟨.expr (st.current.span.merge done.state.previousSpan) done.value, done.state,
        done.shorter⟩) := by
  have hreserved : st.kind.isReserved = false := by
    rw [hs.kind]
    cases k with
    | keyword word => cases word <;> first | rfl | cases hk
    | _ => rfl
  rw [← hs.kind] at hk hbrace
  unfold stmt
  dsimp only
  split
  case h_8 => rw [if_neg (by simp [hreserved])]
  case h_2 hk' => exact absurd hk' hbrace
  all_goals
    next hk' =>
    rw [hk'] at hk
    cases hk

/-- The value of a variable, or its absence, up to the semicolon. -/
theorem initialValue_yields (hnodup : names.texts.toList.Nodup) {assignable : Bool}
    {initial : Option Expr} (hproper : ∀ e ∈ initial, AllProper e.nodes)
    (hconstant : assignable = false → initial ≠ none) (h : st.left < n)
    (hs : st.At names ((initial.elim [] fun value => .symbol .assign :: value.write w names false) ++
      .symbol .semicolon :: rest)) :
    Yields (initialValue source (!assignable) st h) names (.symbol .semicolon :: rest)
      (fun value => value.map Expr.erase = initial.map Expr.erase) := by
  unfold initialValue
  cases initial with
  | none =>
      have hassign : st.kind ≠ .symbol .assign := by
        rw [hs.kind]
        simp
      have hmutable : assignable = true := by
        by_contra hfalse
        exact hconstant (Bool.eq_false_iff.mpr hfalse) rfl
      rw [dif_neg hassign, hmutable, if_neg (by decide)]
      exact .of_at hs h rfl
  | some value =>
      rw [dif_pos hs.kind]
      refine Yields.bind (value.reads_write hnodup (hproper value rfl) false _ _ (hs.take (by simp))
        follows_semicolon) fun read hread hat => ?_
      exact .of_at hat _ (congrArg some hread)

theorem declaration_yields (hnodup : names.texts.toList.Nodup) {span start : Span} {name : Name}
    {assignable : Bool} {initial : Option Expr} (hproper : ∀ e ∈ initial, AllProper e.nodes)
    (hconstant : assignable = false → initial ≠ none)
    (hs : st.At names (.ident name ::
      ((initial.elim [] fun value => .symbol .assign :: value.write w names false) ++
        .symbol .semicolon :: rest))) :
    Yields (declaration source (!assignable) start st) names rest
      (·.erase = (Stmt.declare span name assignable initial).erase) := by
  unfold declaration
  split
  · next hk =>
    cases hs.kind.symm.trans hk
    refine Yields.bind (initialValue_yields hnodup hproper hconstant _ (hs.take (by simp)))
      fun read hread hat => ?_
    exact .of_at hat.eat _ (by simp [Stmt.erase, Parsed.eat, hread])
  · next hk => exact absurd hs.kind (hk _)

theorem endsReturn_of_opens {k : TokenKind} (hk : k.opens) : endsReturn k = false := by
  cases k with
  | symbol x => cases x <;> first | rfl | cases hk
  | endOfInput => cases hk
  | _ => rfl

def declaringWord (w : Wording) (span : Span) (assignable : Bool) : Keyword :=
  if assignable then (if w.var span then .varWord else .letWord) else .constWord

theorem declares_stmt {span : Span} {assignable : Bool} {rest' : List TokenKind} {P : Stmt → Prop}
    (h : st.left ≤ n)
    (hs : st.At names (.keyword (declaringWord w span assignable) :: rest))
    (hdeclared : Yields (declaration source (!assignable) st.current.span
      { st with cursor := st.cursor.advance }) names rest' P) :
    Yields (stmt source (blocks source n) st h) names rest' P := by
  have hword : assignable = true ∧ (st.kind = .keyword .letWord ∨ st.kind = .keyword .varWord) ∨
      assignable = false ∧ st.kind = .keyword .constWord := by
    rw [hs.kind, declaringWord]
    cases assignable <;> cases w.var span <;> simp
  unfold stmt
  dsimp only
  split
  case h_5 hk =>
    obtain rfl : assignable = false := by simpa [hk] using hword
    exact hdeclared.bind fun read hread hat => .of_at hat _ hread
  case h_3 hk =>
    obtain rfl : assignable = true := by simpa [hk] using hword
    exact hdeclared.bind fun read hread hat => .of_at hat _ hread
  case h_4 hk =>
    obtain rfl : assignable = true := by simpa [hk] using hword
    exact hdeclared.bind fun read hread hat => .of_at hat _ hread
  case h_8 => rcases hword with ⟨-, hk | hk⟩ | ⟨-, hk⟩ <;> contradiction
  all_goals next hk => simp [hk] at hword

theorem Stmt.opening_write (s : Stmt) (w : Wording) (names : NameTable) :
    ∃ k ks, s.write w names = k :: ks ∧ k ≠ .symbol .rbrace ∧ k ≠ .endOfInput := by
  cases s with
  | expr span value =>
      obtain ⟨k, ks, hk, hopens, -⟩ := value.opening_write w names true
      refine ⟨k, ks ++ [.symbol .semicolon], by rw [write, hk]; rfl, ?_, ?_⟩
      · rintro rfl
        cases hopens
      · rintro rfl
        cases hopens
  | declare span name assignable initial =>
      cases assignable <;> exact ⟨_, _, rfl, by simp, by simp⟩
  | ret span value => exact ⟨_, _, rfl, by simp, by simp⟩
  | block span first body => exact ⟨_, _, rfl, by simp, by simp⟩
  | empty span => exact ⟨_, _, rfl, by simp, by simp⟩

theorem blockRest_yields {body : List Stmt}
    (hbody : Yields (stmts source (blocks source st.left) st (Nat.le_refl _)) names rest
      (Stmt.eraseList · = Stmt.eraseList body)) :
    Yields (blockRest source st) names rest (Stmt.eraseList ·.2 = Stmt.eraseList body) := by
  rw [blockRest]
  refine hbody.bind fun read hread hat => ?_
  exact ⟨_, rfl, hread, hat.kinds_eq, hat.names_eq⟩

mutual

theorem Stmt.reads (hnodup : names.texts.toList.Nodup) (s : Stmt)
    (hproper : AllProperPhrases s.phrases) {n : Nat} {st : State} {rest : List TokenKind}
    (h : st.left ≤ n) (hs : st.At names (s.write w names ++ rest)) :
    Yields (stmt source (blocks source n) st h) names rest (·.erase = s.erase) := by
  cases s with
  | expr span value =>
      obtain ⟨-, hvalue⟩ := List.forall_mem_cons.mp hproper
      -- What begins with a brace would be read as a block, so it is written in parentheses.
      obtain ⟨k, ks, hk, hopens, hbrace⟩ := value.opening_write w names true
      rw [Stmt.write, List.append_assoc] at hs
      rw [opens_stmt hopens (hbrace rfl) h (by rwa [hk] at hs)]
      refine Yields.bind (value.reads_write hnodup (allProperPhrases_map.mp hvalue) true _ _ hs
        follows_semicolon) fun read hread hat => ?_
      exact .of_at hat.eat _ (by simp [Stmt.erase, Parsed.eat, hread])
  | declare span name assignable initial =>
      obtain ⟨hdeclare, hinitial⟩ := List.forall_mem_cons.mp hproper
      have hconstant : assignable = false → initial ≠ none := by
        rintro rfl rfl
        cases hdeclare
      have hvalue : ∀ e ∈ initial, AllProper e.nodes := by
        rintro e rfl
        exact allProperPhrases_map.mp hinitial
      have hwritten : st.At names (.keyword (declaringWord w span assignable) :: .ident name ::
          ((initial.elim [] fun value => .symbol .assign :: value.write w names false) ++
            .symbol .semicolon :: rest)) := by
        simpa [Stmt.write, declaringWord] using hs
      exact declares_stmt h hwritten
        (declaration_yields hnodup hvalue hconstant (hwritten.take (by simp)))
  | ret span value =>
      obtain ⟨-, hvalue⟩ := List.forall_mem_cons.mp hproper
      unfold stmt
      dsimp only
      cases value with
      | none =>
          have hsemicolon : State.At { st with cursor := st.cursor.advance } names
              (.symbol .semicolon :: rest) := hs.take (by simp)
          have hends : ∀ hne, endsReturn (st.take hne).state.kind = true := fun _ =>
            congrArg endsReturn hsemicolon.kind
          obtain ⟨behind, span, ahead, known, exprs, blocks, rfl⟩ := hs.exists_eq
          show Yields (if _ then _ else _) names rest _
          rw [if_pos (hends _)]
          exact .of_at hsemicolon.eat _ rfl
      | some value =>
          have hinner : State.At { st with cursor := st.cursor.advance } names
              (value.write w names false ++ .symbol .semicolon :: rest) := by
            simpa [Stmt.write] using hs.take (by simp)
          -- No expression begins with a token that ends a `return`.
          have hends : ∀ hne, endsReturn (st.take hne).state.kind = false := by
            intro hne
            obtain ⟨k, ks, hk, hopens, -⟩ := value.opening_write w names false
            rw [hk] at hinner
            exact (congrArg endsReturn hinner.kind).trans (endsReturn_of_opens hopens)
          obtain ⟨behind, span, ahead, known, exprs, blocks, rfl⟩ := hs.exists_eq
          show Yields (if _ then _ else _) names rest _
          rw [if_neg (ne_true_of_eq_false (hends _))]
          refine Yields.bind (value.reads_write hnodup (allProperPhrases_map.mp hvalue) false _ _
            hinner follows_semicolon) fun read hread hat => ?_
          exact .of_at hat.eat _ (by simp [Stmt.erase, Parsed.eat, hread])
  | block span first body =>
      obtain ⟨-, hbody⟩ := List.forall_mem_cons.mp hproper
      unfold stmt
      dsimp only
      have hinner : State.At { st with cursor := st.cursor.advance } names
          (Stmt.writeList w names body ++ .symbol .rbrace :: rest) := by
        simpa [Stmt.write] using hs.take (by simp)
      obtain ⟨behind, span, ahead, known, exprs, blocks, rfl⟩ := hs.exists_eq
      refine Yields.bind (blockRest_yields (Stmt.readsList hnodup body hbody _ hinner))
        fun read hread hat => ?_
      exact .of_at hat _ (congrArg (Stmt.block default 0) hread)
  | empty span =>
      unfold stmt
      dsimp only
      obtain ⟨behind, span, ahead, known, exprs, blocks, rfl⟩ := hs.exists_eq
      exact .of_at (hs.take (by simp)) _ rfl

theorem Stmt.readsList (hnodup : names.texts.toList.Nodup) (body : List Stmt)
    (hproper : AllProperPhrases (Stmt.phrasesOfList body)) {n : Nat} {st : State}
    {rest : List TokenKind} (h : st.left ≤ n)
    (hs : st.At names (Stmt.writeList w names body ++ .symbol .rbrace :: rest)) :
    Yields (stmts source (blocks source n) st h) names rest
      (Stmt.eraseList · = Stmt.eraseList body) := by
  cases body with
  | nil =>
      rw [stmts.eq_def, dif_pos hs.kind]
      exact .of_at (hs.take (by simp)) _ rfl
  | cons s body =>
      obtain ⟨hfirst, hbody⟩ := List.forall_mem_append.mp hproper
      rw [Stmt.writeList, List.append_assoc] at hs
      obtain ⟨k, ks, hk, hbrace, hend⟩ := s.opening_write w names
      have hkind : st.kind = k := by
        rw [hk] at hs
        exact hs.kind
      have hatEnd : st.cursor.atEnd = false := by
        show (st.kind == .endOfInput) = false
        simp [hkind, hend]
      rw [stmts.eq_def, dif_neg (hkind ▸ hbrace), if_neg (by simp [hatEnd])]
      refine Yields.bind (s.reads hnodup hfirst h hs) fun first hone hat => ?_
      refine Yields.bind (Stmt.readsList hnodup body hbody _ hat) fun tail htail hat' => ?_
      refine .of_at hat' _ ?_
      show first.value.erase :: Stmt.eraseList tail.value = s.erase :: Stmt.eraseList body
      rw [hone, htail]

end

/-! ### Procedures -/

theorem params_yields {ps : List Param}
    (hs : st.At names (Param.writeList ps ++ .symbol .rparen :: rest)) :
    Yields (params st) names rest (·.map Param.name = ps.map Param.name) := by
  induction ps generalizing st with
  | nil =>
      rw [params.eq_def, dif_pos hs.kind]
      exact .of_at (hs.take (by simp)) _ rfl
  | cons p ps ih =>
      have hkind : st.kind ≠ .symbol .rparen := by
        rw [hs.kind]
        simp
      rw [params.eq_def, dif_neg hkind]
      split
      · next name hk =>
        cases hs.kind.symm.trans hk
        have hnext := hs.take (by simp)
        cases ps with
        | nil =>
            have hcomma : ∀ hne, (st.take hne).state.kind ≠ .symbol .comma := fun _ heq =>
              absurd (hnext.kind.symm.trans heq) (by simp)
            rw [dif_neg (hcomma _)]
            exact Yields.bind hnext.expect fun closed _ hend => .of_at hend _ rfl
        | cons p' ps =>
            have hcomma : ∀ hne, (st.take hne).state.kind = .symbol .comma := fun _ => hnext.kind
            rw [dif_pos (hcomma _)]
            refine Yields.bind (ih (hnext.take (by simp))) fun tail htail hend => ?_
            exact .of_at hend _ (congrArg (p.name :: ·) htail)
      · next hk => exact absurd hs.kind (hk _)

theorem block_yields (hnodup : names.texts.toList.Nodup) {first : Nat} {body : List Stmt}
    (hproper : AllProperPhrases (Stmt.phrasesOfList body))
    (hs : st.At names ((ProcedureBody.block first body).write w names ++ rest)) :
    Yields (block source st) names rest (·.erase = (ProcedureBody.block first body).erase) := by
  have hwritten : st.At names
      (.symbol .lbrace :: (Stmt.writeList w names body ++ .symbol .rbrace :: rest)) := by
    simpa [ProcedureBody.write] using hs
  refine Yields.bind hwritten.expect fun opened _ hopened => ?_
  refine Yields.bind (blockRest_yields (Stmt.readsList hnodup body hproper _ hopened))
    fun read hread hend => ?_
  exact .of_at hend _ (congrArg (ProcedureBody.block 0) hread)

theorem arrowBody_yields (hnodup : names.texts.toList.Nodup) {body : ProcedureBody}
    (hproper : AllProperPhrases body.phrases) (hs : st.At names (body.write w names ++ rest))
    (hrest : Follows 0 (rest.headD .endOfInput)) :
    Yields (arrowBody source st) names rest (·.erase = body.erase) := by
  unfold arrowBody
  cases body with
  | block first body =>
      have hkind : st.kind = .symbol .lbrace := hs.kind
      rw [if_pos hkind]
      exact block_yields hnodup hproper hs
  | expr value =>
      have hkind : st.kind ≠ .symbol .lbrace := by
        obtain ⟨k, ks, hk, -, hbrace⟩ := value.opening_write w names true
        rw [ProcedureBody.write, hk] at hs
        rw [hs.kind]
        exact hbrace rfl
      rw [if_neg hkind]
      refine Yields.bind (value.reads_write hnodup (allProperPhrases_map.mp hproper) true _ _ hs
        hrest) fun read hread hend => ?_
      exact .of_at hend _ (congrArg ProcedureBody.expr hread)

theorem State.At.skipIdent {name : Option Name}
    (hs : st.At names ((name.map TokenKind.ident).toList ++ .symbol .lparen :: rest)) :
    State.At (if st.cursor.atIdent then { st with cursor := st.cursor.advance } else st) names
      (.symbol .lparen :: rest) := by
  cases name with
  | none =>
      have hident : st.cursor.atIdent = false := by
        have hkind : st.cursor.kind = .symbol .lparen := hs.kind
        rw [Cursor.atIdent, hkind]
      rwa [if_neg (by simp [hident])]
  | some name =>
      have hident : st.cursor.atIdent = true := by
        have hkind : st.cursor.kind = .ident name := hs.kind
        rw [Cursor.atIdent, hkind]
      rw [if_pos hident]
      exact hs.take (by simp)

/-- The parameters and the body of a procedure, up to places. -/
def Procedure.Signs (p : Procedure) (read : List Param × ProcedureBody) : Prop :=
  read.1.map Param.name = p.params.map Param.name ∧ read.2.erase = p.body.erase

variable {p : Procedure}

theorem signature_function (hnodup : p.names.texts.toList.Nodup)
    (hproper : AllProperPhrases p.phrases) {name : Option Name} {first : Nat} {body : List Stmt}
    (hbody : p.body = .block first body)
    (hs : st.At p.names (.keyword .functionWord :: ((name.map TokenKind.ident).toList ++
      .symbol .lparen :: (Param.writeList p.params ++ .symbol .rparen ::
        (p.body.write w p.names ++ rest))))) :
    Yields (signature source st) p.names rest p.Signs := by
  have hphrases : AllProperPhrases p.body.phrases := hproper
  rw [hbody] at hs hphrases
  unfold signature
  obtain ⟨behind, span, ahead, known, exprs, blocks, rfl⟩ := hs.exists_eq
  refine Yields.bind (State.At.skipIdent (hs.take (by simp))).expect fun opened _ hopened => ?_
  refine Yields.bind (params_yields hopened) fun list hlist hat => ?_
  refine Yields.bind (block_yields hnodup hphrases hat) fun read hread hend => ?_
  exact .of_at hend _ ⟨hlist, hbody ▸ hread⟩

theorem signature_arrow (hnodup : p.names.texts.toList.Nodup)
    (hproper : AllProperPhrases p.phrases) (hrest : Follows 0 (rest.headD .endOfInput))
    (hs : st.At p.names (.symbol .lparen :: (Param.writeList p.params ++ .symbol .rparen ::
      .symbol .arrow :: (p.body.write w p.names ++ rest)))) :
    Yields (signature source st) p.names rest p.Signs := by
  unfold signature
  obtain ⟨behind, span, ahead, known, exprs, blocks, rfl⟩ := hs.exists_eq
  refine Yields.bind (params_yields (hs.take (by simp))) fun list hlist hat => ?_
  refine Yields.bind hat.expect fun arrow _ harrow => ?_
  refine Yields.bind (arrowBody_yields hnodup hproper harrow hrest) fun read hread hend => ?_
  exact .of_at hend _ ⟨hlist, hread⟩

theorem signature_bare (hnodup : p.names.texts.toList.Nodup)
    (hproper : AllProperPhrases p.phrases) (hrest : Follows 0 (rest.headD .endOfInput))
    {param : Param} (hparams : p.params = [param])
    (hs : st.At p.names (.ident param.name :: .symbol .arrow ::
      (p.body.write w p.names ++ rest))) :
    Yields (signature source st) p.names rest p.Signs := by
  unfold signature
  have hnext := hs.take (by simp)
  have harrow : ∀ hne, (st.take hne).state.kind = .symbol .arrow := fun _ => hnext.kind
  obtain ⟨behind, span, ahead, known, exprs, blocks, rfl⟩ := hs.exists_eq
  show Yields (dite _ _ _) p.names rest _
  rw [dif_pos (harrow _)]
  refine Yields.bind (arrowBody_yields hnodup hproper (hnext.take (by simp)) hrest)
    fun read hread hend => ?_
  exact .of_at hend _ ⟨by simp [hparams], hread⟩

theorem signature_yields (hnodup : p.names.texts.toList.Nodup)
    (hproper : AllProperPhrases p.phrases) (hrest : Follows 0 (rest.headD .endOfInput))
    (hs : st.At p.names (p.write w ++ rest)) :
    Yields (signature source st) p.names rest p.Signs := by
  unfold Procedure.write at hs
  dsimp only at hs
  split at hs
  · next name first body _ hbody =>
    simp only [List.cons_append, List.append_assoc, List.nil_append] at hs
    exact signature_function hnodup hproper hbody hs
  · next param _ hparams =>
    exact signature_bare hnodup hproper hrest hparams hs
  · simp only [List.cons_append, List.append_assoc, List.nil_append] at hs
    exact signature_arrow hnodup hproper hrest hs

theorem erase_params {ps qs : List Param} (h : qs.map Param.name = ps.map Param.name) :
    qs.map (fun param => { param with span := default }) =
      ps.map fun param => { param with span := default } := by
  have heq : ∀ ls : List Param, ls.map (fun param => { param with span := (default : Span) }) =
      (ls.map Param.name).map fun name => ⟨name, default⟩ := fun ls => by simp
  rw [heq, heq, h]

/-- Writing a procedure as tokens and parsing these gives the procedure again, up to the places of its
phrases, however the writer chooses to word it. -/
theorem procedure_write (source : List Char) (w : Wording) {p : Procedure}
    (hnodup : p.names.texts.toList.Nodup) (hproper : ∀ phrase ∈ p.phrases, phrase.isProper)
    {tokens : List Token} (htokens : tokens.map Token.kind = p.write w ++ [.endOfInput]) :
    ∃ q, Parser.procedure source ⟨Cursor.ofTokens tokens, p.names, 0, 0⟩ = .ok q ∧
      q.erase = p.erase := by
  have hs : State.At ⟨Cursor.ofTokens tokens, p.names, 0, 0⟩ p.names
      (p.write w ++ [.endOfInput]) := ⟨htokens, rfl⟩
  have hend : Follows 0 .endOfInput := by constructor <;> decide
  have hsigned : Yields (signature source ⟨Cursor.ofTokens tokens, p.names, 0, 0⟩) p.names
      [.endOfInput] p.Signs := signature_yields hnodup hproper hend hs
  obtain ⟨read, hread, ⟨hparams, hbody⟩, hat⟩ := hsigned
  have hnot : read.state.kind ≠ .symbol .semicolon := by
    rw [hat.kind]
    simp
  have hsemicolon : read.state.eat .semicolon = read.state := by
    rw [State.eat, dif_neg hnot]
  have hatEnd : read.state.cursor.atEnd = true := by
    show (read.state.kind == .endOfInput) = true
    rw [hat.kind]
    rfl
  rw [procedure, hread]
  show ∃ q, (if (read.state.eat .semicolon).cursor.atEnd then _ else _) = Except.ok q ∧ _
  rw [hsemicolon, if_pos hatEnd]
  refine ⟨_, rfl, ?_⟩
  unfold Procedure.erase
  rw [erase_params hparams, hbody, hat.names_eq]

/-- A tree for `s => \x7b (\x7b if: 1 \x7d).if; s = (s = 1) * -s++; \x7d`. -/
def sampleProcedure : Procedure where
  params := [⟨⟨1⟩, default⟩]
  body :=
    let one : Expr := .number default 4607182418800017408
    let s : Expr := .ident default ⟨1⟩
    .block 0 [
      .expr default (.member default (.object default [.entry ⟨2⟩ default one]) ⟨2⟩),
      .expr default (.assign default .plain s (.binary default .mul (.assign default .plain s one)
        (.unary default .neg (.step default .increment .after s))))]
  exprs := 0
  stmts := 0
  names := ⟨#["", "s", "if"]⟩
  source := []
  span := default

/-- The wording with as few tokens as there can be. -/
def tersely : Wording := ⟨.bare, fun _ => false, fun _ => false, fun _ => true⟩

theorem procedure_write_sample :
    sampleProcedure.write tersely =
      [.ident ⟨1⟩, .symbol .arrow, .symbol .lbrace,
        .symbol .lparen, .symbol .lbrace, .keyword .ifWord, .symbol .colon,
        .number 4607182418800017408, .symbol .rbrace, .symbol .rparen, .symbol .dot,
        .keyword .ifWord, .symbol .semicolon,
        .ident ⟨1⟩, .symbol .assign, .symbol .lparen, .ident ⟨1⟩, .symbol .assign,
        .number 4607182418800017408, .symbol .rparen, .symbol .star, .symbol .minus, .ident ⟨1⟩,
        .symbol .plusPlus, .symbol .semicolon, .symbol .rbrace] ∧
    ∃ q, Parser.procedure [] ⟨Cursor.ofTokens
        ((sampleProcedure.write tersely ++ [TokenKind.endOfInput]).map (⟨·, default⟩)),
          sampleProcedure.names, 0, 0⟩ = .ok q ∧
      q.erase = sampleProcedure.erase := by
  refine ⟨by decide, procedure_write [] tersely (by decide) (by decide) ?_⟩
  rw [List.map_map]
  exact List.map_id _

end PathCopy
