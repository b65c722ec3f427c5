import PathCopy.Proofs.Analysis
import PathCopy.Proofs.Declared

/-!
Unknown keys. A key that is not known before the run makes a procedure inadmissible where it is part
of a write: a step on the way to what is assigned or stepped, a step on the way to the map of a
`set` or a `delete`, or the key of the entry. The analysis also follows the receiver of every other
method call and what is called without being a method, though nothing is written there; so a `get`
of a `get` is refused that has a key of the run inside. With the keys of these reads known, only a
write can be at fault.
-/

namespace PathCopy

namespace Procedure

variable (p : Procedure) (roles : Roles)

/-- The key expression of an access, or of a `get` in a chain. -/
def linkKey? : Link → Option Expr
  | .key key => some key
  | .method _ property [key] => if p.nameText property = "get" then some key else none
  | _ => none

def chainKeys (e : Expr) : List Expr :=
  if e.root? = some roles.state then e.links.filterMap p.linkKey? else []

/-- The key expressions of the write that a phrase makes through the state. -/
def writeKeys : Phrase → List Expr
  | .expr (.assign _ _ target _) | .expr (.step _ _ _ target) => p.chainKeys roles target
  | .expr (.call _ (.member _ base property) args) =>
    match p.nameText property, args with
    | "set", [key, _] | "delete", [key] =>
      if base.root? = some roles.state then p.chainKeys roles base ++ [key] else []
    | _, _ => []
  | _ => []

/-- The key expressions that the analysis meets where a call reads from the state: on the way to the
receiver of another method than `set` and `delete`, or to what is called without being a method. -/
def callKeys : Phrase → List Expr
  | .expr (.call _ (.member _ base property) args) =>
    match p.nameText property, args with
    | "set", [_, _] | "delete", [_] => []
    | _, _ => p.chainKeys roles base
  | .expr (.call _ callee _) => p.chainKeys roles callee
  | _ => []

variable {p roles} {e : Expr} {error : AnalysisError} {q : Phrase}

theorem linkKey_of_stops {link : Link} {text : String} {span : Span}
    (h : p.Stops roles link (.unanalyzableKey text span)) :
    ∃ key, p.linkKey? link = some key ∧ (∀ s, ¬ p.Denotes roles key s) ∧
      text = p.snippet key.span ∧ span = key.span := by
  cases h with
  | key h => exact ⟨_, rfl, h, rfl, rfl⟩
  | get call hget h => exact ⟨_, by rw [linkKey?, if_pos hget], h, rfl, rfl⟩

/-- The analysis stops at an unknown key only on the way of a chain. -/
theorem chainKey_of_strays {text : String} {span : Span}
    (h : p.Strays roles e (.unanalyzableKey text span)) :
    ∃ key ∈ p.chainKeys roles e, (∀ s, ¬ p.Denotes roles key s) ∧
      text = p.snippet key.span ∧ span = key.span := by
  obtain ⟨hroot, before, link, after, hlinks, -, hstops⟩ := h
  obtain ⟨key, hkey, hunknown⟩ := linkKey_of_stops hstops
  refine ⟨key, ?_, hunknown⟩
  rw [chainKeys, if_pos hroot, List.mem_filterMap]
  exact ⟨link, by simp [hlinks], hkey⟩

/-- The way to the receiver of a method call counts for the write of the call, or for its read. -/
theorem mem_keys_of_receiver {site site' : Site} {base key : Expr} {property : Name}
    {args : List Expr} (h : key ∈ p.chainKeys roles base) :
    key ∈ p.writeKeys roles (.expr (.call site (.member site' base property) args)) ∨
      key ∈ p.callKeys roles (.expr (.call site (.member site' base property) args)) := by
  have hroot : base.root? = some roles.state := by
    by_contra hroot
    rw [chainKeys, if_neg hroot] at h
    cases h
  unfold writeKeys callKeys
  dsimp only
  split
  · rw [if_pos hroot]
    exact .inl (List.mem_append_left _ h)
  · rw [if_pos hroot]
    exact .inl (List.mem_append_left _ h)
  · exact .inr h

theorem callKeys_callee {site : Site} {callee : Expr} {args : List Expr}
    (hmember : callee.isMember = false) :
    p.callKeys roles (.expr (.call site callee args)) = p.chainKeys roles callee := by
  cases callee with
  | member => cases hmember
  | _ => rfl

/-- A phrase that offends by an unknown key has this key in its write or in a read by a call. -/
theorem key_of_offends {text : String} {span : Span}
    (h : p.Offends roles q (.unanalyzableKey text span)) :
    ∃ key, (key ∈ p.writeKeys roles q ∨ key ∈ p.callKeys roles q) ∧
      (∀ s, ¬ p.Denotes roles key s) ∧ text = p.snippet key.span ∧ span = key.span := by
  cases h with
  | target h =>
      obtain ⟨key, hkey, hunknown⟩ := chainKey_of_strays h
      exact ⟨key, .inl hkey, hunknown⟩
  | operand h =>
      obtain ⟨key, hkey, hunknown⟩ := chainKey_of_strays h
      exact ⟨key, .inl hkey, hunknown⟩
  | receiver h =>
      obtain ⟨key, hkey, hunknown⟩ := chainKey_of_strays h
      exact ⟨key, mem_keys_of_receiver hkey, hunknown⟩
  | callee hmember h =>
      obtain ⟨key, hkey, hunknown⟩ := chainKey_of_strays h
      exact ⟨key, .inr (callKeys_callee hmember ▸ hkey), hunknown⟩
  | @key site site' base key property rest segments h hmethod hget hkey =>
      refine ⟨key, .inl ?_, hkey, rfl, rfl⟩
      cases hmethod with
      | get _ h => exact absurd h hget
      | set _ value hset => simp [writeKeys, hset, h.1]
      | delete _ hdelete => simp [writeKeys, hdelete, h.1]

/-- The chains that the analysis follows to the end have only known keys on their way. -/
theorem known_of_leads {segments : List Segment} (h : p.Leads roles e segments) :
    ∀ key ∈ p.chainKeys roles e, ∃ s, p.Denotes roles key s := by
  intro key hkey
  rw [chainKeys, if_pos h.1, List.mem_filterMap] at hkey
  obtain ⟨link, hlink, hkey⟩ := hkey
  obtain ⟨s, -, hpasses⟩ := exists_of_forall₂ h.2 hlink
  refine ⟨s, ?_⟩
  cases hpasses with
  | field property => cases hkey
  | key h =>
      cases hkey
      exact h
  | get call hget h =>
      rw [linkKey?, if_pos hget] at hkey
      cases hkey
      exact h

theorem chainKeys_elsewhere (h : e.root? ≠ some roles.state) : p.chainKeys roles e = [] := if_neg h

/-- An admissible phrase has only known keys, in its write and in what its call reads. -/
theorem known_of_declares {own : List WritePath} (h : p.Declares roles q own) {key : Expr}
    (hkey : key ∈ p.writeKeys roles q ∨ key ∈ p.callKeys roles q) :
    ∃ s, p.Denotes roles key s := by
  cases h with
  | assign h _ => exact known_of_leads h key (hkey.resolve_right List.not_mem_nil)
  | assignElsewhere h | stepElsewhere h =>
      have hkey := hkey.resolve_right List.not_mem_nil
      rw [writeKeys, chainKeys_elsewhere h] at hkey
      cases hkey
  | get h hget =>
      exact known_of_leads h key (by simpa [writeKeys, callKeys, hget] using hkey)
  | set h hset hknown =>
      simp only [writeKeys, callKeys, hset, if_pos h.1, List.mem_append, List.mem_singleton,
        List.not_mem_nil, or_false] at hkey
      obtain hkey | rfl := hkey
      · exact known_of_leads h key hkey
      · exact ⟨_, hknown⟩
  | delete h hdelete hknown =>
      simp only [writeKeys, callKeys, hdelete, if_pos h.1, List.mem_append, List.mem_singleton,
        List.not_mem_nil, or_false] at hkey
      obtain hkey | rfl := hkey
      · exact known_of_leads h key hkey
      · exact ⟨_, hknown⟩
  | @callElsewhere site callee args h =>
      -- A call elsewhere has no keys that the analysis looks at.
      exfalso
      cases callee with
      | member site' base property =>
          rw [Expr.root?] at h
          unfold writeKeys callKeys at hkey
          dsimp only at hkey
          split at hkey <;> simp [chainKeys_elsewhere h, h] at hkey
      | _ => simp [writeKeys, callKeys, chainKeys_elsewhere h] at hkey
  | declare => simp [writeKeys, callKeys] at hkey
  | @indifferent q h =>
      exfalso
      cases q with
      | stmt s => simp [writeKeys, callKeys] at hkey
      | expr e => cases e <;> simp_all [writeKeys, callKeys, Phrase.matters]

/-- A procedure whose write paths are found has only known keys in its writes, and in the reads of
its calls. -/
theorem known_of_writePaths {ws : List WritePath} (h : p.writePaths = .ok ws)
    (hcasts : p.Casts roles) (hq : q ∈ p.phrases) {key : Expr}
    (hkey : key ∈ p.writeKeys roles q ∨ key ∈ p.callKeys roles q) :
    ∃ s, p.Denotes roles key s := by
  obtain ⟨roles', own, hcasts', hown, -⟩ := writePaths_ok_iff.mp h
  have hroles : roles = roles' := by
    have heq := roles_ok_iff.mpr hcasts
    rw [roles_ok_iff.mpr hcasts'] at heq
    exact (Except.ok.inj heq).symm
  subst hroles
  obtain ⟨_, -, hdeclares⟩ := exists_of_forall₂ hown hq
  exact known_of_declares hdeclares hkey

/-- An unknown key that is reported is one of a write or one of a read by a call. -/
theorem key_of_writePaths {text : String} {span : Span}
    (h : p.writePaths = .error (.unanalyzableKey text span)) :
    ∃ roles q key, p.Casts roles ∧ q ∈ p.phrases ∧
      (key ∈ p.writeKeys roles q ∨ key ∈ p.callKeys roles q) ∧
      (∀ s, ¬ p.Denotes roles key s) ∧ text = p.snippet key.span ∧ span = key.span := by
  obtain hmiscasts | ⟨roles, before, q, after, hcasts, hphrases, -, hoffends⟩ :=
    writePaths_error_iff.mp h
  · cases hmiscasts
  · obtain ⟨key, hkey, hunknown⟩ := key_of_offends hoffends
    exact ⟨roles, q, key, hcasts, by simp [hphrases], hkey, hunknown⟩

/-- A key that is reported as unknown is not known before the run, and it belongs to a write or to
the way to the receiver of another call. Where these calls have no keys of the run, only a write is
refused; so if the keys of all writes are known too, no unknown key is reported, with whatever keys
the procedure reads. -/
theorem unanalyzableKey_of_write (p : Procedure) :
    (∀ text span, p.writePaths = .error (.unanalyzableKey text span) →
      ∃ roles q key, p.Casts roles ∧ q ∈ p.phrases ∧
        (key ∈ p.writeKeys roles q ∨ key ∈ p.callKeys roles q) ∧
        (∀ s, ¬ p.Denotes roles key s) ∧ text = p.snippet key.span ∧ span = key.span) ∧
    ((∀ roles, p.Casts roles → ∀ q ∈ p.phrases, ∀ key ∈ p.callKeys roles q,
        ∃ s, p.Denotes roles key s) →
      (∀ text span, p.writePaths = .error (.unanalyzableKey text span) →
        ∃ roles q key, p.Casts roles ∧ q ∈ p.phrases ∧ key ∈ p.writeKeys roles q ∧
          (∀ s, ¬ p.Denotes roles key s) ∧ text = p.snippet key.span ∧ span = key.span) ∧
      ((∀ roles, p.Casts roles → ∀ q ∈ p.phrases, ∀ key ∈ p.writeKeys roles q,
          ∃ s, p.Denotes roles key s) →
        ∀ text span, p.writePaths ≠ .error (.unanalyzableKey text span))) := by
  refine ⟨fun text span => key_of_writePaths, fun hcalls => ?_⟩
  have hwrite : ∀ text span, p.writePaths = .error (.unanalyzableKey text span) →
      ∃ roles q key, p.Casts roles ∧ q ∈ p.phrases ∧ key ∈ p.writeKeys roles q ∧
        (∀ s, ¬ p.Denotes roles key s) ∧ text = p.snippet key.span ∧ span = key.span := by
    intro text span h
    obtain ⟨roles, q, key, hcasts, hq, hkey, hunknown, hreported⟩ := key_of_writePaths h
    refine ⟨roles, q, key, hcasts, hq, hkey.resolve_right fun hcall => ?_, hunknown, hreported⟩
    obtain ⟨s, hs⟩ := hcalls roles hcasts q hq key hcall
    exact hunknown s hs
  refine ⟨hwrite, fun hknown text span h => ?_⟩
  obtain ⟨roles, q, key, hcasts, hq, hkey, hunknown, -⟩ := hwrite text span h
  obtain ⟨s, hs⟩ := hknown roles hcasts q hq key hkey
  exact hunknown s hs

/-- A procedure that reads with a key of the run and writes with another one. -/
def pick : String := "(s, k) => \x7b let i = 'a'; s.out = s.list[i]; s.map.set(i, s.map.get(k)) \x7d"

/-- A procedure that only reads with a key of the run. -/
def peek : String := "s => \x7b let k = 'a'; s.out = s.map.get(k).get('b') \x7d"

theorem pick_parses : (parse pick).toOption.isSome := by decide +kernel

theorem peek_parses : (parse peek).toOption.isSome := by decide +kernel

theorem known_of_all {f : Roles → Phrase → List Expr} (hroles : p.roles = .ok roles)
    (hall : (p.phrases.flatMap (f roles)).all fun key => (p.segment? roles key).isSome)
    (roles' : Roles) (hcasts : p.Casts roles') :
    ∀ q ∈ p.phrases, ∀ key ∈ f roles' q, ∃ s, p.Denotes roles' key s := by
  have heq := roles_ok_iff.mpr hcasts
  rw [hroles] at heq
  cases heq
  intro q hq key hkey
  have hsome := List.all_eq_true.mp hall key (List.mem_flatMap.mpr ⟨q, hq, hkey⟩)
  obtain ⟨s, hs⟩ := Option.isSome_iff_exists.mp hsome
  exact ⟨s, denotes_iff.mpr hs⟩

/-- The key of the `set` is at fault, and neither the index nor the key of the `get`. -/
theorem unanalyzableKey_of_write_pick :
    (ofText pick pick_parses).writePaths = .error (.unanalyzableKey "i" ⟨54, 55⟩) ∧
      ∃ roles q key, (ofText pick pick_parses).Casts roles ∧
        q ∈ (ofText pick pick_parses).phrases ∧
        key ∈ (ofText pick pick_parses).writeKeys roles q ∧ (⟨54, 55⟩ : Span) = key.span := by
  obtain ⟨herror, hroles, hcalls⟩ :
      (ofText pick pick_parses).writePaths = .error (.unanalyzableKey "i" ⟨54, 55⟩) ∧
        (ofText pick pick_parses).roles = .ok ⟨⟨1⟩, some ⟨2⟩⟩ ∧
        ((ofText pick pick_parses).phrases.flatMap
          ((ofText pick pick_parses).callKeys ⟨⟨1⟩, some ⟨2⟩⟩)).all fun key =>
            ((ofText pick pick_parses).segment? ⟨⟨1⟩, some ⟨2⟩⟩ key).isSome := by
    decide +kernel
  obtain ⟨roles, q, key, hcasts, hq, hkey, -, -, hspan⟩ :=
    ((unanalyzableKey_of_write (ofText pick pick_parses)).2
      (known_of_all hroles hcalls)).1 _ _ herror
  exact ⟨herror, roles, q, key, hcasts, hq, hkey, hspan⟩

/-- A read through two maps is refused for the key of the first one, though no write has a key of
the run. -/
theorem unanalyzableKey_peek :
    parse peek = .ok (ofText peek peek_parses) ∧
      (ofText peek peek_parses).writePaths = .error (.unanalyzableKey "k" ⟨38, 39⟩) ∧
      ∀ roles, (ofText peek peek_parses).Casts roles → ∀ q ∈ (ofText peek peek_parses).phrases,
        ∀ key ∈ (ofText peek peek_parses).writeKeys roles q,
          ∃ s, (ofText peek peek_parses).Denotes roles key s := by
  obtain ⟨herror, hroles, hwrites⟩ :
      (ofText peek peek_parses).writePaths = .error (.unanalyzableKey "k" ⟨38, 39⟩) ∧
        (ofText peek peek_parses).roles = .ok ⟨⟨1⟩, none⟩ ∧
        ((ofText peek peek_parses).phrases.flatMap
          ((ofText peek peek_parses).writeKeys ⟨⟨1⟩, none⟩)).all fun key =>
            ((ofText peek peek_parses).segment? ⟨⟨1⟩, none⟩ key).isSome := by
    decide +kernel
  exact ⟨parse_ofText peek_parses, herror, known_of_all hroles hwrites⟩

end Procedure

end PathCopy
