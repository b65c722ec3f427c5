import PathCopy.Path.Extract
import PathCopy.Procedure.Walk
import PathCopy.Proofs.Outcomes

/-!
The rules of the analysis. A write goes along a chain from the state, link by link; a phrase of the
body declares its write or none, or it offends against the rules. The rules for chains are those that
the analysis follows: `Leads` are the chains it follows to the end, `Strays` those it stops in.
-/

namespace PathCopy

/-! ### Chains -/

/-- One access of a chain, or a call in it. -/
inductive Link
  | field (property : Name)
  | key (key : Expr)
  | method (call : Span) (property : Name) (args : List Expr)
  | call (call : Span) (callee : Expr) (args : List Expr)

namespace Expr

def root? : Expr → Option Name
  | .ident _ name => some name
  | .member _ base _ => base.root?
  | .index _ base _ => base.root?
  | .call _ callee _ => callee.root?
  | _ => none

/-- The accesses and calls of a chain, from its root outwards. -/
def links : Expr → List Link
  | .member _ base property => base.links ++ [.field property]
  | .index _ base key => base.links ++ [.key key]
  | .call site (.member _ base property) args => base.links ++ [.method site.span property args]
  | .call site callee args => callee.links ++ [.call site.span callee args]
  | _ => []

def isMember : Expr → Bool
  | .member .. => true
  | _ => false

theorem links_call {site : Site} {callee : Expr} {args : List Expr}
    (hmember : callee.isMember = false) :
    (Expr.call site callee args).links = callee.links ++ [.call site.span callee args] := by
  cases callee with
  | member => cases hmember
  | _ => rfl

end Expr

/-- Whether a phrase can write, or hide a parameter. -/
def Phrase.matters : Phrase → Bool
  | .expr (.assign ..) | .expr (.step ..) | .expr (.call ..) | .stmt (.declare ..) => true
  | _ => false

namespace Procedure

variable (p : Procedure) (roles : Roles)

/-! ### The rules of the analysis -/

/-- A key expression that is known before the run, and the segment it stands for. -/
inductive Denotes : Expr → Segment → Prop
  | number (site : Site) (bits : UInt64) :
      Denotes (.number site bits) (.key (Number.keyText (Float.ofBits bits)))
  | string (site : Site) (text : Name) : Denotes (.string site text) (.key (p.nameText text))
  | args {name : Name} (site : Site) (h : roles.args = some name) :
      Denotes (.ident site name) .whole
  | field {name : Name} (site base : Site) (property : Name) (h : roles.args = some name) :
      Denotes (.member site (.ident base name) property) (.named (p.nameText property))
  | entry {name : Name} (site base key : Site) (text : Name) (h : roles.args = some name) :
      Denotes (.index site (.ident base name) (.string key text)) (.named (p.nameText text))
  | item {name : Name} (site base key : Site) (bits : UInt64) (h : roles.args = some name) :
      Denotes (.index site (.ident base name) (.number key bits))
        (.named (Number.keyText (Float.ofBits bits)))

/-- A link that a write can pass, and its segment: a field, a known key, or `get` with one. -/
inductive Passes : Link → Segment → Prop
  | field (property : Name) : Passes (.field property) (.key (p.nameText property))
  | key {key : Expr} {s : Segment} (h : p.Denotes roles key s) : Passes (.key key) s
  | get {property : Name} {key : Expr} {s : Segment} (call : Span)
      (hget : p.nameText property = "get") (h : p.Denotes roles key s) :
      Passes (.method call property [key]) s

/-- Why a write cannot pass a link. -/
inductive Stops : Link → AnalysisError → Prop
  | key {key : Expr} (h : ∀ s, ¬ p.Denotes roles key s) :
      Stops (.key key) (.unanalyzableKey (p.snippet key.span) key.span)
  | get {property : Name} {key : Expr} (call : Span) (hget : p.nameText property = "get")
      (h : ∀ s, ¬ p.Denotes roles key s) :
      Stops (.method call property [key]) (.unanalyzableKey (p.snippet key.span) key.span)
  | method {property : Name} {args : List Expr} (call : Span)
      (h : ¬ (p.nameText property = "get" ∧ args.length = 1)) :
      Stops (.method call property args)
        (.unsupportedCall (p.nameText property) args.length call)
  | call (call : Span) (callee : Expr) (args : List Expr) :
      Stops (.call call callee args)
        (.unsupportedCall (p.snippet callee.span) args.length call)

/-- The expression is a chain from the state that a write can pass along these segments. -/
def Leads (e : Expr) (segments : List Segment) : Prop :=
  e.root? = some roles.state ∧ List.Forall₂ (p.Passes roles) e.links segments

/-- The expression is a chain from the state, and the first link that stops a write does so for
this reason. -/
def Strays (e : Expr) (error : AnalysisError) : Prop :=
  e.root? = some roles.state ∧ ∃ before link after, e.links = before ++ link :: after ∧
    (∀ l ∈ before, ∃ s, p.Passes roles l s) ∧ p.Stops roles link error

/-- The methods of the state: `get`, `set` and `delete` with their numbers of arguments. -/
inductive Method (property : Name) : List Expr → Prop
  | get (key : Expr) (h : p.nameText property = "get") : Method property [key]
  | set (key value : Expr) (h : p.nameText property = "set") : Method property [key, value]
  | delete (key : Expr) (h : p.nameText property = "delete") : Method property [key]

/-- An admissible phrase, and the writes that it makes itself. Admissible are the assignment to a
chain from the state with a link at least, the three methods on such a chain, the declaration of
another name than those of the parameters, and whatever does not start at the state. -/
inductive Declares : Phrase → List WritePath → Prop
  | assign {site : Site} {target value : Expr} {segments : List Segment}
      (h : p.Leads roles target segments) (hne : segments ≠ []) :
      Declares (.expr (.assign site .plain target value)) [⟨segments, .assign⟩]
  | assignElsewhere {site : Site} {op : AssignOp} {target value : Expr}
      (h : target.root? ≠ some roles.state) :
      Declares (.expr (.assign site op target value)) []
  | stepElsewhere {site : Site} {op : StepOp} {fixity : Fixity} {target : Expr}
      (h : target.root? ≠ some roles.state) :
      Declares (.expr (.step site op fixity target)) []
  | get {site site' : Site} {base key : Expr} {property : Name} {segments : List Segment}
      (h : p.Leads roles base segments) (hget : p.nameText property = "get") :
      Declares (.expr (.call site (.member site' base property) [key])) []
  | set {site site' : Site} {base key value : Expr} {property : Name} {segments : List Segment}
      {s : Segment} (h : p.Leads roles base segments) (hset : p.nameText property = "set")
      (hkey : p.Denotes roles key s) :
      Declares (.expr (.call site (.member site' base property) [key, value]))
        [⟨segments ++ [s], .mapSet⟩]
  | delete {site site' : Site} {base key : Expr} {property : Name} {segments : List Segment}
      {s : Segment} (h : p.Leads roles base segments) (hdelete : p.nameText property = "delete")
      (hkey : p.Denotes roles key s) :
      Declares (.expr (.call site (.member site' base property) [key]))
        [⟨segments ++ [s], .mapDelete⟩]
  | callElsewhere {site : Site} {callee : Expr} {args : List Expr}
      (h : callee.root? ≠ some roles.state) : Declares (.expr (.call site callee args)) []
  | declare {span : Span} {name : Name} {assignable : Bool} {initial : Option Expr}
      (hstate : name ≠ roles.state) (hargs : roles.args ≠ some name) :
      Declares (.stmt (.declare span name assignable initial)) []
  | indifferent {q : Phrase} (h : q.matters = false) : Declares q []

/-- A phrase that the analysis refuses, and why. -/
inductive Offends : Phrase → AnalysisError → Prop
  | target {site : Site} {op : AssignOp} {target value : Expr} {error : AnalysisError}
      (h : p.Strays roles target error) : Offends (.expr (.assign site op target value)) error
  | compound {site : Site} {op : AssignOp} {target value : Expr} {segments : List Segment}
      (h : p.Leads roles target segments) (hop : op ≠ .plain) :
      Offends (.expr (.assign site op target value)) (.compoundAssignment op.symbol site.span)
  | state {site : Site} {target value : Expr} (h : p.Leads roles target []) :
      Offends (.expr (.assign site .plain target value)) (.stateReassignment site.span)
  | operand {site : Site} {op : StepOp} {fixity : Fixity} {target : Expr} {error : AnalysisError}
      (h : p.Strays roles target error) : Offends (.expr (.step site op fixity target)) error
  | step {site : Site} {op : StepOp} {fixity : Fixity} {target : Expr} {segments : List Segment}
      (h : p.Leads roles target segments) :
      Offends (.expr (.step site op fixity target)) (.compoundAssignment op.symbol site.span)
  | receiver {site site' : Site} {base : Expr} {property : Name} {args : List Expr}
      {error : AnalysisError} (h : p.Strays roles base error) :
      Offends (.expr (.call site (.member site' base property) args)) error
  | method {site site' : Site} {base : Expr} {property : Name} {args : List Expr}
      {segments : List Segment} (h : p.Leads roles base segments)
      (hmethod : ¬ p.Method property args) :
      Offends (.expr (.call site (.member site' base property) args))
        (.unsupportedCall (p.nameText property) args.length site.span)
  | key {site site' : Site} {base key : Expr} {property : Name} {rest : List Expr}
      {segments : List Segment} (h : p.Leads roles base segments)
      (hmethod : p.Method property (key :: rest)) (hget : p.nameText property ≠ "get")
      (hkey : ∀ s, ¬ p.Denotes roles key s) :
      Offends (.expr (.call site (.member site' base property) (key :: rest)))
        (.unanalyzableKey (p.snippet key.span) key.span)
  | callee {site : Site} {callee : Expr} {args : List Expr} {error : AnalysisError}
      (hmember : callee.isMember = false) (h : p.Strays roles callee error) :
      Offends (.expr (.call site callee args)) error
  | call {site : Site} {callee : Expr} {args : List Expr} {segments : List Segment}
      (hmember : callee.isMember = false) (h : p.Leads roles callee segments) :
      Offends (.expr (.call site callee args))
        (.unsupportedCall (p.snippet callee.span) args.length site.span)
  | declare {span : Span} {name : Name} {assignable : Bool} {initial : Option Expr}
      (h : name = roles.state ∨ roles.args = some name) :
      Offends (.stmt (.declare span name assignable initial))
        (.shadowedParameter (p.nameText name) span)

/-- The parameters have these roles: there are one or two, with different names. -/
def Casts : Prop :=
  p.params.map Param.name = roles.state :: roles.args.toList ∧ (p.params.map Param.name).Nodup

/-- Why the parameters have no roles. -/
inductive Miscasts : AnalysisError → Prop
  | none (h : p.params = []) : Miscasts (.missingStateParameter p.span)
  | twice {state args : Param} (h : p.params = [state, args]) (hname : state.name = args.name) :
      Miscasts (.duplicateParameter (p.nameText args.name) args.span)
  | many {state args extra : Param} {rest : List Param}
      (h : p.params = state :: args :: extra :: rest) :
      Miscasts (.tooManyParameters p.params.length extra.span)

/-! ### Links -/

variable {p : Procedure} {roles : Roles} {e : Expr}

theorem denotes_iff {s : Segment} : p.Denotes roles e s ↔ p.segment? roles e = some s := by
  constructor
  · intro h
    cases h with
    | number | string => rfl
    | args _ h | field _ _ _ h | entry _ _ _ _ h | item _ _ _ _ h =>
        rw [segment?, if_pos (by simp [Roles.isArgs, h])]
  · intro h
    unfold segment? at h
    split at h
    · cases h
      exact .number _ _
    · cases h
      exact .string _ _
    · obtain ⟨hargs, ⟨⟩⟩ := Option.ite_none_right_eq_some.mp h
      exact .args _ (by simpa [Roles.isArgs] using hargs)
    · obtain ⟨hargs, ⟨⟩⟩ := Option.ite_none_right_eq_some.mp h
      exact .field _ _ _ (by simpa [Roles.isArgs] using hargs)
    · obtain ⟨hargs, ⟨⟩⟩ := Option.ite_none_right_eq_some.mp h
      exact .entry _ _ _ _ (by simpa [Roles.isArgs] using hargs)
    · obtain ⟨hargs, ⟨⟩⟩ := Option.ite_none_right_eq_some.mp h
      exact .item _ _ _ _ (by simpa [Roles.isArgs] using hargs)
    · cases h

theorem segment_ok_iff {s : Segment} : p.segment roles e = .ok s ↔ p.Denotes roles e s := by
  rw [denotes_iff, segment]
  cases p.segment? roles e <;> simp

theorem segment_error_iff {error : AnalysisError} : p.segment roles e = .error error ↔
    (∀ s, ¬ p.Denotes roles e s) ∧ error = .unanalyzableKey (p.snippet e.span) e.span := by
  simp only [denotes_iff, segment]
  cases p.segment? roles e <;> simp [eq_comm]

def methodLink (p : Procedure) (roles : Roles) (call : Span) (property : Name) (args : List Expr) :
    Except AnalysisError Segment :=
  match p.nameText property, args with
  | "get", [key] => p.segment roles key
  | method, args => .error (.unsupportedCall method args.length call)

def link (p : Procedure) (roles : Roles) : Link → Except AnalysisError Segment
  | .field property => .ok (.key (p.nameText property))
  | .key key => p.segment roles key
  | .method call property args => p.methodLink roles call property args
  | .call call callee args =>
    .error (.unsupportedCall (p.snippet callee.span) args.length call)

theorem methodLink_get {call : Span} {property : Name} {key : Expr}
    (hget : p.nameText property = "get") :
    p.methodLink roles call property [key] = p.segment roles key := by
  simp only [methodLink, hget]

theorem methodLink_other {call : Span} {property : Name} {args : List Expr}
    (h : ¬ (p.nameText property = "get" ∧ args.length = 1)) :
    p.methodLink roles call property args =
      .error (.unsupportedCall (p.nameText property) args.length call) := by
  unfold methodLink
  split
  · next key hget => exact absurd ⟨hget, rfl⟩ h
  · rfl

theorem get_or_not (p : Procedure) (property : Name) (args : List Expr) :
    (∃ key, p.nameText property = "get" ∧ args = [key]) ∨
      ¬ (p.nameText property = "get" ∧ args.length = 1) := by
  by_cases h : p.nameText property = "get" ∧ args.length = 1
  · obtain ⟨key, rfl⟩ := List.length_eq_one_iff.mp h.2
    exact .inl ⟨key, h.1, rfl⟩
  · exact .inr h

theorem link_ok_iff {l : Link} {s : Segment} : p.link roles l = .ok s ↔ p.Passes roles l s := by
  constructor
  · intro h
    cases l with
    | field property =>
        cases h
        exact .field property
    | key key => exact .key (segment_ok_iff.mp h)
    | method call property args =>
        rw [link] at h
        obtain ⟨key, hget, rfl⟩ | hother := p.get_or_not property args
        · rw [methodLink_get hget] at h
          exact .get call hget (segment_ok_iff.mp h)
        · rw [methodLink_other hother] at h
          cases h
    | call call callee args => cases h
  · intro h
    cases h with
    | field property => rfl
    | key h => exact segment_ok_iff.mpr h
    | get call hget h =>
        rw [link, methodLink_get hget]
        exact segment_ok_iff.mpr h

theorem link_error_iff {l : Link} {error : AnalysisError} :
    p.link roles l = .error error ↔ p.Stops roles l error := by
  constructor
  · intro h
    cases l with
    | field property => cases h
    | key key =>
        obtain ⟨hkey, rfl⟩ := segment_error_iff.mp h
        exact .key hkey
    | method call property args =>
        rw [link] at h
        obtain ⟨key, hget, rfl⟩ | hother := p.get_or_not property args
        · rw [methodLink_get hget] at h
          obtain ⟨hkey, rfl⟩ := segment_error_iff.mp h
          exact .get call hget hkey
        · rw [methodLink_other hother] at h
          cases h
          exact .method call hother
    | call call callee args =>
        cases h
        exact .call call callee args
  · intro h
    cases h with
    | key h => exact segment_error_iff.mpr ⟨h, rfl⟩
    | get call hget h =>
        rw [link, methodLink_get hget]
        exact segment_error_iff.mpr ⟨h, rfl⟩
    | method call h => exact methodLink_other h
    | call call callee args => rfl

/-! ### Chains from the state -/

theorem methodLink_append {property : Name} {args : List Expr} (call : Span)
    (segments : List Segment) :
    (match p.nameText property, args with
      | "get", [key] => do
        let s ← p.segment roles key
        .ok (some (segments ++ [s]))
      | method, args => .error (.unsupportedCall method args.length call)) =
      (p.methodLink roles call property args).map fun s => some (segments ++ [s]) := by
  unfold methodLink
  split
  · next key _ => cases p.segment roles key <;> rfl
  · rfl

/-- The analysis follows the links of a chain from the state, and no other chain. -/
theorem stateChain_eq : p.stateChain roles e =
    if e.root? = some roles.state then (e.links.mapM (p.link roles)).map some else .ok none := by
  induction e using stateChain.induct with
  | case1 site name =>
      simp only [stateChain, Expr.root?, Option.some.injEq]
      split <;> rfl
  | case2 site base property ih =>
      rw [stateChain, ih, Expr.root?, Expr.links, List.mapM_append]
      split
      · cases base.links.mapM (p.link roles) <;> rfl
      · rfl
  | case3 site base key ih =>
      rw [stateChain, ih, Expr.root?, Expr.links, List.mapM_append]
      split
      · cases base.links.mapM (p.link roles) with
        | error => rfl
        | ok segments =>
            cases hkey : p.segment roles key <;> simp [link, hkey] <;> rfl
      · rfl
  | case4 site site' base property args ih =>
      rw [stateChain, ih, Expr.root?, Expr.root?, Expr.links, List.mapM_append]
      split
      · cases base.links.mapM (p.link roles) with
        | error => rfl
        | ok segments =>
            refine (methodLink_append site.span segments).trans ?_
            cases hlink : p.methodLink roles site.span property args <;> simp [link, hlink] <;> rfl
      · rfl
  | case5 site callee args hcallee ih => 
      have hmember : callee.isMember = false := by
        cases callee with
        | member site' base property => exact absurd rfl (hcallee site' base property)
        | _ => rfl
      rw [stateChain, ih, Expr.root?, Expr.links_call hmember, List.mapM_append]
      · split
        · cases callee.links.mapM (p.link roles) <;> rfl
        · rfl
      · exact hcallee
  | case6 t hident hmember hindex hmethod hcall => 
      cases t with
      | ident site name => exact absurd rfl (hident site name)
      | member site base property => exact absurd rfl (hmember site base property)
      | index site base key => exact absurd rfl (hindex site base key)
      | call site callee args => exact absurd rfl (hcall site callee args)
      | _ => rfl

theorem stateChain_none_iff :
    p.stateChain roles e = .ok none ↔ e.root? ≠ some roles.state := by
  rw [stateChain_eq]
  split
  · next hroot => cases e.links.mapM (p.link roles) <;> simp [hroot, Except.map]
  · next hroot => simp [hroot]

theorem stateChain_some_iff {segments : List Segment} :
    p.stateChain roles e = .ok (some segments) ↔ p.Leads roles e segments := by
  have hpasses : (fun l s => p.link roles l = .ok s) = p.Passes roles := by
    funext l s
    exact propext link_ok_iff
  rw [stateChain_eq, Leads, ← hpasses, ← mapM_ok_iff]
  split
  · next hroot => cases e.links.mapM (p.link roles) <;> simp [hroot, Except.map]
  · next hroot => simp [hroot]

theorem stateChain_error_iff {error : AnalysisError} :
    p.stateChain roles e = .error error ↔ p.Strays roles e error := by
  have hpasses : ∀ l, (∃ s, p.Passes roles l s) ↔ ∃ s, p.link roles l = .ok s := fun l =>
    exists_congr fun s => link_ok_iff.symm
  simp only [stateChain_eq, Strays, hpasses, ← link_error_iff, ← mapM_error_iff]
  split
  · next hroot => cases e.links.mapM (p.link roles) <;> simp [hroot, Except.map]
  · next hroot => simp [hroot]

/-- A chain that a write can pass is the state, or such a chain with a field, a known key or a `get`
of a known key after it. -/
theorem Leads.induct {motive : ∀ e segments, p.Leads roles e segments → Prop}
    (state : ∀ site (h : p.Leads roles (.ident site roles.state) []), motive _ _ h)
    (field : ∀ site base property segments (hbase : p.Leads roles base segments) h,
      motive base segments hbase →
      motive (.member site base property) (segments ++ [.key (p.nameText property)]) h)
    (key : ∀ site base key segments s (hbase : p.Leads roles base segments) h,
      p.Denotes roles key s → motive base segments hbase →
      motive (.index site base key) (segments ++ [s]) h)
    (get : ∀ site site' base property key segments s (hbase : p.Leads roles base segments) h,
      p.nameText property = "get" → p.Denotes roles key s → motive base segments hbase →
      motive (.call site (.member site' base property) [key]) (segments ++ [s]) h)
    {segments : List Segment} (h : p.Leads roles e segments) : motive e segments h := by
  obtain ⟨hroot, hlinks⟩ := id h
  -- The last link of a chain gives its last segment, and the links before it those of its base.
  induction e using Expr.links.induct generalizing segments with
  | case1 site base property ih =>
      obtain ⟨before, s, rfl, hbefore, hs⟩ := forall₂_concat_left hlinks
      have hbase : p.Leads roles base before := ⟨hroot, hbefore⟩
      cases hs
      exact field _ _ _ _ hbase h (ih hbase hroot hbefore)
  | case2 site base index ih =>
      obtain ⟨before, s, rfl, hbefore, hs⟩ := forall₂_concat_left hlinks
      have hbase : p.Leads roles base before := ⟨hroot, hbefore⟩
      cases hs with
      | key hs => exact key _ _ _ _ _ hbase h hs (ih hbase hroot hbefore)
  | case3 site site' base property args ih =>
      obtain ⟨before, s, rfl, hbefore, hs⟩ := forall₂_concat_left hlinks
      have hbase : p.Leads roles base before := ⟨hroot, hbefore⟩
      cases hs with
      | get _ hget hs =>
          exact get _ _ _ _ _ _ _ hbase h hget hs (ih hbase hroot hbefore)
  | case4 site callee args hcallee ih =>
      rw [Expr.links] at hlinks
      · obtain ⟨before, s, rfl, -, hs⟩ := forall₂_concat_left hlinks
        cases hs
      · exact hcallee
  | case5 e hmember hindex hmethod hcall =>
      cases e with
      | ident site name =>
          cases hroot
          cases hlinks
          exact state site h
      | member site base property => exact absurd rfl (hmember site base property)
      | index site base key => exact absurd rfl (hindex site base key)
      | call site callee args => exact absurd rfl (hcall site callee args)
      | _ => cases hroot

/-- A chain that a write can pass holds no write. -/
theorem Leads.exprWrites {segments : List Segment} (h : p.Leads roles e segments) :
    p.exprWrites roles e = .ok [] := by
  have hkey : ∀ {key s}, p.Denotes roles key s → p.exprWrites roles key = .ok [] := fun h =>
    exprWrites_of_segment? (denotes_iff.mp h)
  induction h using Leads.induct with
  | state site => rw [Procedure.exprWrites]
  | field site base property segments hbase h ih =>
      rw [Procedure.exprWrites]
      exact ih
  | key site base key segments s hbase h hs ih =>
      rw [Procedure.exprWrites, ih, hkey hs]
      rfl
  | get site site' base property key segments s hbase h hget hs ih =>
      rw [Procedure.exprWrites, Procedure.exprWrites, listWrites, listWrites, callWrites,
        stateChain_some_iff.mpr hbase, ih, hkey hs]
      simp [hget]
      rfl

end Procedure

end PathCopy
