import PathCopy.Proofs.Pointwise
import PathCopy.Proofs.Rules

/-!
What the text of a procedure declares. The analysis takes the phrases of the body one after the other,
in reading order, though it leaves out what it has followed as the target of a write. So the write
paths are what all phrases declare, each once, and if some phrase offends, then the first one in
reading order is reported.
-/

namespace PathCopy

namespace Procedure

variable {p : Procedure} {roles : Roles} {e : Expr}

/-! ### Phrases -/

/-- The writes of a phrase, those of the phrases inside it apart. -/
def ownWrites (p : Procedure) (roles : Roles) : Phrase → Except AnalysisError (List WritePath)
  | .expr (.call site callee args) => p.callWrites roles site callee args
  | .expr (.assign site op target _) => do
    match ← p.stateChain roles target with
    | none => .ok []
    | some segments =>
      if op ≠ .plain then .error (.compoundAssignment op.symbol site.span)
      else if segments = [] then .error (.stateReassignment site.span)
      else .ok [⟨segments, .assign⟩]
  | .expr (.step site op _ target) => do
    match ← p.stateChain roles target with
    | none => .ok []
    | some _ => .error (.compoundAssignment op.symbol site.span)
  | .stmt (.declare span name _ _) =>
    if roles.isParameter name then .error (.shadowedParameter (p.nameText name) span) else .ok []
  | _ => .ok []

def gather (p : Procedure) (roles : Roles) (qs : List Phrase) :
    Except AnalysisError (List WritePath) :=
  (qs.mapM (p.ownWrites roles)).map List.flatten

theorem gather_append (qs rs : List Phrase) : p.gather roles (qs ++ rs) = (do
    let ws ← p.gather roles qs
    let vs ← p.gather roles rs
    .ok (ws ++ vs)) := by
  rw [gather, gather, gather, List.mapM_append]
  cases qs.mapM (p.ownWrites roles) with
  | error => rfl
  | ok ws =>
      cases rs.mapM (p.ownWrites roles) with
      | error => rfl
      | ok vs => exact congrArg Except.ok List.flatten_append

theorem gather_cons (q : Phrase) (qs : List Phrase) : p.gather roles (q :: qs) = (do
    let own ← p.ownWrites roles q
    let ws ← p.gather roles qs
    .ok (own ++ ws)) := by
  rw [gather, gather, List.mapM_cons]
  cases p.ownWrites roles q with
  | error => rfl
  | ok own => cases qs.mapM (p.ownWrites roles) <;> rfl

theorem ownWrites_plain {q : Phrase} (h : q.matters = false) : p.ownWrites roles q = .ok [] := by
  cases q with
  | stmt s =>
      cases s with
      | declare => cases h
      | _ => rfl
  | expr e =>
      cases e with
      | assign | step | call => cases h
      | _ => rfl

theorem gather_plain {q : Phrase} (h : q.matters = false) (qs : List Phrase) :
    p.gather roles (q :: qs) = p.gather roles qs := by
  rw [gather_cons, ownWrites_plain h]
  cases p.gather roles qs <;> rfl

mutual

/-- The writes of an expression are those of its phrases, one phrase after the other. -/
theorem exprWrites_eq (p : Procedure) (roles : Roles) :
    ∀ e, p.exprWrites roles e = p.gather roles (e.nodes.map .expr)
  | .number .. | .string .. | .bool .. | .null .. | .undefined .. | .ident .. => rfl
  | .member _ base _ => by
      rw [exprWrites, Expr.nodes, List.map_cons, gather_plain rfl, exprWrites_eq p roles base]
  | .index _ base key => by
      rw [exprWrites, Expr.nodes, List.map_cons, gather_plain rfl, List.map_append, gather_append,
        exprWrites_eq p roles base, exprWrites_eq p roles key]
  | .call site callee args => by
      rw [exprWrites, Expr.nodes, List.map_cons, gather_cons, List.map_append, gather_append,
        exprWrites_eq p roles callee, listWrites_eq p roles args, ownWrites]
      -- The write of the call itself comes first, so its error hides those of the parts.
      cases p.callWrites roles site callee args with
      | error => rfl
      | ok own =>
          cases p.gather roles (callee.nodes.map .expr) with
          | error => rfl
          | ok ws =>
              cases p.gather roles ((Expr.nodesOfList args).map .expr) with
              | error => rfl
              | ok vs => exact congrArg Except.ok (List.append_assoc own ws vs)
  | .assign site op target value => by
      rw [exprWrites, Expr.nodes, List.map_cons, gather_cons, List.map_append, gather_append,
        ← exprWrites_eq p roles target, ← exprWrites_eq p roles value, ownWrites]
      cases hchain : p.stateChain roles target with
      | error => rfl
      | ok chain =>
          cases chain with
          | none =>
              cases p.exprWrites roles target with
              | error => rfl
              | ok ws => cases p.exprWrites roles value <;> rfl
          | some segments =>
              -- A target that leads to the state holds no writes of its own.
              rw [(stateChain_some_iff.mp hchain).exprWrites]
              simp only [bind, Except.bind]
              split
              · rfl
              · split
                · rfl
                · cases p.exprWrites roles value <;> rfl
  | .step site op fixity target => by
      rw [exprWrites, Expr.nodes, List.map_cons, gather_cons, ← exprWrites_eq p roles target,
        ownWrites]
      cases p.stateChain roles target with
      | error => rfl
      | ok chain =>
          cases chain with
          | none => cases p.exprWrites roles target <;> rfl
          | some segments => rfl
  | .binary _ _ left right => by
      rw [exprWrites, Expr.nodes, List.map_cons, gather_plain rfl, List.map_append, gather_append,
        exprWrites_eq p roles left, exprWrites_eq p roles right]
  | .unary _ _ operand => by
      rw [exprWrites, Expr.nodes, List.map_cons, gather_plain rfl, exprWrites_eq p roles operand]
  | .array _ items => by
      rw [exprWrites, Expr.nodes, List.map_cons, gather_plain rfl, listWrites_eq p roles items]
  | .object _ entries => by
      rw [exprWrites, Expr.nodes, List.map_cons, gather_plain rfl, entriesWrites_eq p roles entries]

theorem listWrites_eq (p : Procedure) (roles : Roles) :
    ∀ es, p.listWrites roles es = p.gather roles ((Expr.nodesOfList es).map .expr)
  | [] => rfl
  | e :: es => by
      rw [listWrites, Expr.nodesOfList, List.map_append, gather_append, exprWrites_eq p roles e,
        listWrites_eq p roles es]

theorem entriesWrites_eq (p : Procedure) (roles : Roles) :
    ∀ es, p.entriesWrites roles es = p.gather roles ((Expr.nodesOfEntries es).map .expr)
  | [] => rfl
  | .entry _ _ value :: rest => by
      rw [entriesWrites, Expr.nodesOfEntries, List.map_append, gather_append,
        exprWrites_eq p roles value, entriesWrites_eq p roles rest]

end

theorem optionWrites_eq (p : Procedure) (roles : Roles) (e : Option Expr) :
    p.optionWrites roles e = p.gather roles ((Expr.nodesOfOption e).map .expr) := by
  cases e with
  | none => rfl
  | some e => exact exprWrites_eq p roles e

mutual

/-- The writes of a statement are those of its phrases, one phrase after the other. -/
theorem stmtWrites_eq (p : Procedure) (roles : Roles) :
    ∀ s, p.stmtWrites roles s = p.gather roles s.phrases
  | .expr _ value => by
      rw [stmtWrites, Stmt.phrases, gather_plain rfl, exprWrites_eq]
  | .declare span name assignable initial => by
      rw [stmtWrites, Stmt.phrases, gather_cons, ownWrites, ← optionWrites_eq]
      split
      · rfl
      · cases p.optionWrites roles initial <;> rfl
  | .ret _ value => by
      rw [stmtWrites, Stmt.phrases, gather_plain rfl, optionWrites_eq]
  | .block _ _ body => by
      rw [stmtWrites, Stmt.phrases, gather_plain rfl, stmtsWrites_eq p roles body]
  | .empty _ => rfl

theorem stmtsWrites_eq (p : Procedure) (roles : Roles) :
    ∀ ss, p.stmtsWrites roles ss = p.gather roles (Stmt.phrasesOfList ss)
  | [] => rfl
  | s :: rest => by
      rw [stmtsWrites, Stmt.phrasesOfList, gather_append, stmtWrites_eq p roles s,
        stmtsWrites_eq p roles rest]

end

theorem bodyWrites_eq (p : Procedure) (roles : Roles) :
    p.bodyWrites roles = p.gather roles p.phrases := by
  unfold bodyWrites phrases ProcedureBody.phrases
  cases p.body with
  | expr value => exact exprWrites_eq p roles value
  | block first body => exact stmtsWrites_eq p roles body

/-! ### The rules and the analysis -/

section Calls

variable {site site' : Site} {base callee : Expr} {property : Name} {args : List Expr}
  {segments : List Segment} {ws : List WritePath} {error : AnalysisError}

/-- The writes of a method call, once its receiver has been followed. -/
def methodWrites (p : Procedure) (roles : Roles) (call : Span) (property : Name) (args : List Expr)
    (segments : List Segment) : Except AnalysisError (List WritePath) :=
  match p.nameText property, args with
  | "get", [_] => .ok []
  | "set", [key, _] => do
    let s ← p.segment roles key
    .ok [⟨segments ++ [s], .mapSet⟩]
  | "delete", [key] => do
    let s ← p.segment roles key
    .ok [⟨segments ++ [s], .mapDelete⟩]
  | method, args => .error (.unsupportedCall method args.length call)

theorem callWrites_member : p.callWrites roles site (.member site' base property) args = (do
    match ← p.stateChain roles base with
    | none => .ok []
    | some segments => p.methodWrites roles site.span property args segments) := rfl

theorem callWrites_of_not_member (h : callee.isMember = false) :
    p.callWrites roles site callee args = (do
      match ← p.stateChain roles callee with
      | none => .ok []
      | some _ => .error (.unsupportedCall (p.snippet callee.span) args.length site.span)) := by
  cases callee with
  | member => cases h
  | _ => rfl

theorem declares_of_methodWrites (hbase : p.Leads roles base segments)
    (h : p.methodWrites roles site.span property args segments = .ok ws) :
    p.Declares roles (.expr (.call site (.member site' base property) args)) ws := by
  unfold methodWrites at h
  split at h
  · next hget =>
    cases h
    exact .get hbase hget
  · next hset =>
    obtain ⟨s, hs, h⟩ := except_bind_ok h
    cases h
    exact .set hbase hset (segment_ok_iff.mp hs)
  · next hdelete =>
    obtain ⟨s, hs, h⟩ := except_bind_ok h
    cases h
    exact .delete hbase hdelete (segment_ok_iff.mp hs)
  · cases h

theorem offends_of_methodWrites (hbase : p.Leads roles base segments)
    (h : p.methodWrites roles site.span property args segments = .error error) :
    p.Offends roles (.expr (.call site (.member site' base property) args)) error := by
  unfold methodWrites at h
  split at h
  · cases h
  · next key value hset =>
    obtain hkey | ⟨s, -, h⟩ := except_bind_error h
    · obtain ⟨hunknown, rfl⟩ := segment_error_iff.mp hkey
      exact .key hbase (.set key value hset) (by simp [hset]) hunknown
    · cases h
  · next key hdelete =>
    obtain hkey | ⟨s, -, h⟩ := except_bind_error h
    · obtain ⟨hunknown, rfl⟩ := segment_error_iff.mp hkey
      exact .key hbase (.delete key hdelete) (by simp [hdelete]) hunknown
    · cases h
  · next hget hset hdelete =>
    cases h
    refine .method hbase fun h => ?_
    cases h with
    | get key h => exact hget key h rfl
    | set key value h => exact hset key value h rfl
    | delete key h => exact hdelete key h rfl

theorem declares_of_callWrites (h : p.callWrites roles site callee args = .ok ws) :
    p.Declares roles (.expr (.call site callee args)) ws := by
  cases hmember : callee.isMember with
  | true =>
      cases callee with
      | member site' base property =>
          rw [callWrites_member] at h
          obtain ⟨chain, hchain, h⟩ := except_bind_ok h
          cases chain with
          | none =>
              cases h
              have hroot : base.root? ≠ some roles.state := stateChain_none_iff.mp hchain
              exact .callElsewhere hroot
          | some segments => exact declares_of_methodWrites (stateChain_some_iff.mp hchain) h
      | _ => cases hmember
  | false =>
      rw [callWrites_of_not_member hmember] at h
      obtain ⟨chain, hchain, h⟩ := except_bind_ok h
      cases chain with
      | none =>
          cases h
          exact .callElsewhere (stateChain_none_iff.mp hchain)
      | some segments => cases h

theorem offends_of_callWrites (h : p.callWrites roles site callee args = .error error) :
    p.Offends roles (.expr (.call site callee args)) error := by
  cases hmember : callee.isMember with
  | true =>
      cases callee with
      | member site' base property =>
          rw [callWrites_member] at h
          obtain hchain | ⟨chain, hchain, h⟩ := except_bind_error h
          · exact .receiver (stateChain_error_iff.mp hchain)
          · cases chain with
            | none => cases h
            | some segments => exact offends_of_methodWrites (stateChain_some_iff.mp hchain) h
      | _ => cases hmember
  | false =>
      rw [callWrites_of_not_member hmember] at h
      obtain hchain | ⟨chain, hchain, h⟩ := except_bind_error h
      · exact .callee hmember (stateChain_error_iff.mp hchain)
      · cases chain with
        | none => cases h
        | some segments =>
            cases h
            exact .call hmember (stateChain_some_iff.mp hchain)

theorem methodWrites_other {call : Span} (h : ¬ p.Method property args) :
    p.methodWrites roles call property args segments =
      .error (.unsupportedCall (p.nameText property) args.length call) := by
  unfold methodWrites
  split
  · next key hget => exact absurd (.get key hget) h
  · next key value hset => exact absurd (.set key value hset) h
  · next key hdelete => exact absurd (.delete key hdelete) h
  · rfl

end Calls

/-- What the analysis makes of a phrase, the rules say of it. -/
theorem declares_of_ownWrites {q : Phrase} {ws : List WritePath}
    (h : p.ownWrites roles q = .ok ws) : p.Declares roles q ws := by
  -- The cases are those of `ownWrites`. The phrases it passes over are the indifferent ones.
  cases q with
  | stmt s =>
      cases s with
      | declare span name assignable initial =>
          rw [ownWrites] at h
          split at h
          · cases h
          · next hname =>
            cases h
            obtain ⟨hstate, hargs⟩ : name ≠ roles.state ∧ roles.args ≠ some name := by
              simpa [Roles.isParameter, Roles.isArgs] using hname
            exact .declare hstate hargs
      | _ =>
          cases h
          exact .indifferent rfl
  | expr e =>
      cases e with
      | call site callee args => exact declares_of_callWrites h
      | assign site op target value =>
          obtain ⟨chain, hchain, h⟩ := except_bind_ok h
          cases chain with
          | none =>
              cases h
              exact .assignElsewhere (stateChain_none_iff.mp hchain)
          | some segments =>
              simp only at h
              split at h
              · cases h
              · next hop =>
                split at h
                · cases h
                · next hne =>
                  cases h
                  cases not_not.mp hop
                  exact .assign (stateChain_some_iff.mp hchain) hne
      | step site op fixity target =>
          obtain ⟨chain, hchain, h⟩ := except_bind_ok h
          cases chain with
          | none =>
              cases h
              exact .stepElsewhere (stateChain_none_iff.mp hchain)
          | some segments => cases h
      | _ =>
          cases h
          exact .indifferent rfl

theorem offends_of_ownWrites {q : Phrase} {error : AnalysisError}
    (h : p.ownWrites roles q = .error error) : p.Offends roles q error := by
  cases q with
  | stmt s =>
      cases s with
      | declare span name assignable initial =>
          rw [ownWrites] at h
          split at h
          · next hname =>
            cases h
            refine .declare ?_
            simpa [Roles.isParameter, Roles.isArgs] using hname
          · cases h
      | _ => cases h
  | expr e =>
      cases e with
      | call site callee args => exact offends_of_callWrites h
      | assign site op target value =>
          obtain hchain | ⟨chain, hchain, h⟩ := except_bind_error h
          · exact .target (stateChain_error_iff.mp hchain)
          · cases chain with
            | none => cases h
            | some segments =>
                have hleads := stateChain_some_iff.mp hchain
                simp only at h
                split at h
                · next hop =>
                  cases h
                  exact .compound hleads hop
                · next hop =>
                  split at h
                  · next hnil =>
                    cases h
                    cases hnil
                    cases not_not.mp hop
                    exact .state hleads
                  · cases h
      | step site op fixity target =>
          obtain hchain | ⟨chain, hchain, h⟩ := except_bind_error h
          · exact .operand (stateChain_error_iff.mp hchain)
          · cases chain with
            | none => cases h
            | some segments =>
                cases h
                exact .step (stateChain_some_iff.mp hchain)
      | _ => cases h

/-- A phrase makes by itself the writes that the rules say it declares. -/
theorem ownWrites_of_declares {q : Phrase} {ws : List WritePath} (h : p.Declares roles q ws) :
    p.ownWrites roles q = .ok ws := by
  cases h with
  | assign h hne =>
      rw [ownWrites, stateChain_some_iff.mpr h]
      simp [bind, Except.bind, hne]
  | assignElsewhere h | stepElsewhere h =>
      rw [ownWrites, stateChain_none_iff.mpr h]
      rfl
  | get h hget =>
      rw [ownWrites, callWrites_member, stateChain_some_iff.mpr h]
      simp [bind, Except.bind, methodWrites, hget]
  | set h hset hkey =>
      rw [ownWrites, callWrites_member, stateChain_some_iff.mpr h]
      simp [bind, Except.bind, methodWrites, hset, segment_ok_iff.mpr hkey]
  | delete h hdelete hkey =>
      rw [ownWrites, callWrites_member, stateChain_some_iff.mpr h]
      simp [bind, Except.bind, methodWrites, hdelete, segment_ok_iff.mpr hkey]
  | @callElsewhere site callee args h =>
      rw [ownWrites]
      cases hmember : callee.isMember with
      | true =>
          cases callee with
          | member site' base property =>
              have hroot : base.root? ≠ some roles.state := h
              rw [callWrites_member, stateChain_none_iff.mpr hroot]
              rfl
          | _ => cases hmember
      | false =>
          rw [callWrites_of_not_member hmember, stateChain_none_iff.mpr h]
          rfl
  | declare hstate hargs =>
      rw [ownWrites, if_neg]
      simp [Roles.isParameter, Roles.isArgs, hstate, hargs]
  | indifferent h => exact ownWrites_plain h

theorem ownWrites_of_offends {q : Phrase} {error : AnalysisError} (h : p.Offends roles q error) :
    p.ownWrites roles q = .error error := by
  cases h with
  | target h | operand h =>
      rw [ownWrites, stateChain_error_iff.mpr h]
      rfl
  | compound h hop =>
      rw [ownWrites, stateChain_some_iff.mpr h]
      simp [bind, Except.bind, hop]
  | state h =>
      rw [ownWrites, stateChain_some_iff.mpr h]
      simp [bind, Except.bind]
  | step h =>
      rw [ownWrites, stateChain_some_iff.mpr h]
      rfl
  | receiver h =>
      rw [ownWrites, callWrites_member, stateChain_error_iff.mpr h]
      rfl
  | method h hmethod =>
      rw [ownWrites, callWrites_member, stateChain_some_iff.mpr h]
      exact methodWrites_other hmethod
  | key h hmethod hget hkey =>
      rw [ownWrites, callWrites_member, stateChain_some_iff.mpr h]
      have hsegment := segment_error_iff.mpr ⟨hkey, rfl⟩
      cases hmethod with
      | get key hname => exact absurd hname hget
      | set key value hname | delete key hname =>
          simp [bind, Except.bind, methodWrites, hname, hsegment]
  | callee hmember h =>
      rw [ownWrites, callWrites_of_not_member hmember, stateChain_error_iff.mpr h]
      rfl
  | call hmember h =>
      rw [ownWrites, callWrites_of_not_member hmember, stateChain_some_iff.mpr h]
      rfl
  | declare h =>
      rw [ownWrites, if_pos]
      simpa [Roles.isParameter, Roles.isArgs] using h

theorem ownWrites_ok_iff {q : Phrase} {ws : List WritePath} :
    p.ownWrites roles q = .ok ws ↔ p.Declares roles q ws :=
  ⟨declares_of_ownWrites, ownWrites_of_declares⟩

theorem ownWrites_error_iff {q : Phrase} {error : AnalysisError} :
    p.ownWrites roles q = .error error ↔ p.Offends roles q error :=
  ⟨offends_of_ownWrites, ownWrites_of_offends⟩

theorem Declares.segments_ne_nil {q : Phrase} {ws : List WritePath} (h : p.Declares roles q ws)
    {w : WritePath} (hw : w ∈ ws) : w.segments ≠ [] := by
  cases h with
  | assign h hne =>
      cases List.mem_singleton.mp hw
      exact hne
  | set | delete =>
      cases List.mem_singleton.mp hw
      simp
  | _ => cases hw

/-! ### The parameters -/

theorem roles_ok_iff : p.roles = .ok roles ↔ p.Casts roles := by
  obtain ⟨state, args⟩ := roles
  unfold Procedure.roles Casts
  split
  · next h => simp [h]
  · next param h =>
    cases args <;> simp [h]
  · next param param' h =>
    by_cases hname : param.name = param'.name <;> cases args <;> simp [h, hname]
  · next param param' extra rest h =>
    cases args <;> simp [h]

theorem roles_error_iff {error : AnalysisError} : p.roles = .error error ↔ p.Miscasts error := by
  constructor
  · intro h
    unfold Procedure.roles at h
    split at h
    · next hparams =>
      cases h
      exact .none hparams
    · cases h
    · next hparams =>
      split at h
      · next hname =>
        cases h
        exact .twice hparams hname
      · cases h
    · next hparams =>
      cases h
      exact .many hparams
  · intro h
    cases h with
    | none h => simp [Procedure.roles, h]
    | twice h hname => simp [Procedure.roles, h, hname]
    | many h => simp [Procedure.roles, h]

/-! ### Write paths -/

theorem gather_ok_iff {qs : List Phrase} {ws : List WritePath} : p.gather roles qs = .ok ws ↔
    ∃ own, List.Forall₂ (p.Declares roles) qs own ∧ ws = own.flatten := by
  have hdeclares : (fun q ws => p.ownWrites roles q = .ok ws) = p.Declares roles := by
    funext q ws
    exact propext ownWrites_ok_iff
  rw [gather, ← hdeclares]
  simp only [← mapM_ok_iff]
  cases qs.mapM (p.ownWrites roles) <;> simp [Except.map, eq_comm]

theorem gather_error_iff {qs : List Phrase} {error : AnalysisError} :
    p.gather roles qs = .error error ↔ ∃ before q after, qs = before ++ q :: after ∧
      (∀ b ∈ before, ∃ own, p.Declares roles b own) ∧ p.Offends roles q error := by
  simp only [← ownWrites_error_iff, ← ownWrites_ok_iff, ← mapM_error_iff, gather]
  cases qs.mapM (p.ownWrites roles) <;> simp [Except.map]

theorem writePaths_ok_iff {ws : List WritePath} : p.writePaths = .ok ws ↔
    ∃ roles own, p.Casts roles ∧ List.Forall₂ (p.Declares roles) p.phrases own ∧
      ws = own.flatten.eraseDups := by
  rw [writePaths]
  constructor
  · intro h
    obtain ⟨roles, hroles, h⟩ := except_bind_ok h
    obtain ⟨writes, hwrites, h⟩ := except_bind_ok h
    cases h
    rw [bodyWrites_eq] at hwrites
    obtain ⟨own, hown, rfl⟩ := gather_ok_iff.mp hwrites
    exact ⟨roles, own, roles_ok_iff.mp hroles, hown, rfl⟩
  · rintro ⟨roles, own, hroles, hown, rfl⟩
    rw [roles_ok_iff.mpr hroles]
    have hwrites : p.bodyWrites roles = .ok own.flatten :=
      (bodyWrites_eq p roles).trans (gather_ok_iff.mpr ⟨own, hown, rfl⟩)
    simp [bind, Except.bind, hwrites]

theorem writePaths_error_iff {error : AnalysisError} : p.writePaths = .error error ↔
    p.Miscasts error ∨ ∃ roles before q after, p.Casts roles ∧ p.phrases = before ++ q :: after ∧
      (∀ b ∈ before, ∃ own, p.Declares roles b own) ∧ p.Offends roles q error := by
  rw [← roles_error_iff]
  simp only [← roles_ok_iff]
  have hbody : ∀ roles, p.bodyWrites roles = .error error ↔ _ := fun roles =>
    bodyWrites_eq p roles ▸ gather_error_iff
  constructor
  · intro h
    obtain hroles | ⟨roles, hroles, h⟩ := except_bind_error h
    · exact .inl hroles
    · obtain hwrites | ⟨ws, -, h⟩ := except_bind_error h
      · obtain ⟨before, q, after, hoffends⟩ := (hbody roles).mp hwrites
        exact .inr ⟨roles, before, q, after, hroles, hoffends⟩
      · cases h
  · rintro (hroles | ⟨roles, before, q, after, hroles, hoffends⟩)
    · rw [writePaths, hroles]
      rfl
    · rw [writePaths, hroles]
      simp [bind, Except.bind, (hbody roles).mpr ⟨before, q, after, hoffends⟩]

/-- The write paths of a procedure. They exist exactly if there are one or two parameters with
different names and every phrase of the body is admissible; then they are what the phrases declare,
in reading order, each once, and each leads somewhere. Otherwise the parameters are reported, or the
first phrase in reading order that offends. -/
theorem writePaths_declared (p : Procedure) :
    ((∃ ws, p.writePaths = .ok ws) ↔
      ∃ roles, p.Casts roles ∧ ∀ q ∈ p.phrases, ∃ own, p.Declares roles q own) ∧
    (∀ ws, p.writePaths = .ok ws → ∃ roles own, p.Casts roles ∧
      List.Forall₂ (p.Declares roles) p.phrases own ∧ ws = own.flatten.eraseDups ∧
      ∀ w ∈ ws, w.segments ≠ []) ∧
    ∀ error, p.writePaths = .error error ↔ p.Miscasts error ∨
      ∃ roles before q after, p.Casts roles ∧ p.phrases = before ++ q :: after ∧
        (∀ b ∈ before, ∃ own, p.Declares roles b own) ∧ p.Offends roles q error := by
  refine ⟨?_, fun ws hws => ?_, fun error => writePaths_error_iff⟩
  · simp only [writePaths_ok_iff, ← exists_forall₂_iff]
    constructor
    · rintro ⟨ws, roles, own, hroles, hown, -⟩
      exact ⟨roles, hroles, own, hown⟩
    · rintro ⟨roles, hroles, own, hown⟩
      exact ⟨_, roles, own, hroles, hown, rfl⟩
  · obtain ⟨roles, own, hroles, hown, rfl⟩ := writePaths_ok_iff.mp hws
    refine ⟨roles, own, hroles, hown, rfl, fun w hw => ?_⟩
    obtain ⟨vs, hvs, hw⟩ := List.mem_flatten.mp (List.mem_eraseDups.mp hw)
    obtain ⟨q, -, hdeclares⟩ := exists_of_forall₂ hown.flip hvs
    exact hdeclares.segments_ne_nil hw

end Procedure

end PathCopy
