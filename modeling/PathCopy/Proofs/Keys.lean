import PathCopy.Proofs.Foresight

/-!
Keys before the run and during it. A key expression that the analysis accepts has a segment, the
segment gets its key from the argument before the run, and the expression is evaluated during it.
The two keys are the same unless a number literal is not finite, or the argument is a map: its
entries give keys before the run, but its only property is its size.
-/

namespace PathCopy

/-- The number literals of a key expression are finite. -/
def Expr.hasFiniteKeys : Expr → Bool
  | .number _ bits => (Float.ofBits bits).isFinite
  | .index _ _ (.number _ bits) => (Float.ofBits bits).isFinite
  | _ => true

namespace Run

variable {v w : Value} {k : String} {span : Span} {m : Machine}

theorem key_iff : key v span m = .ok k m ↔ v.key? = some k := by
  refine ⟨key_ok, fun h => ?_⟩
  simp only [key, h]
  rfl

/-- The key that a property spells. A value without properties has none that does. -/
theorem property_key_iff {key' : String} {span' : Span} :
    (property v key' span >>= fun w => key w span') m = .ok k m ↔
      (m.store.property v key').key? = some k := by
  rw [property, bind_assoc, bind_apply, get_apply]
  dsimp only
  by_cases hnullish : (m.store.kind v).isNullish
  · rw [if_pos hnullish, bind_apply, fail_apply]
    refine iff_of_false (by simp) ?_
    cases v with
    | node r =>
        rw [Store.kind] at hnullish
        cases hbody : m.store.body r <;> rw [hbody] at hnullish <;> cases hnullish
    | scalar a =>
        cases a with
        | undefined => rintro ⟨⟩
        | null => rintro ⟨⟩
        | bool b => cases hnullish
        | number x => cases hnullish
        | text s => cases hnullish
  · rw [if_neg hnullish, pure_bind, key_iff]

end Run

namespace Procedure

variable {p : Procedure} {roles : Roles} {m : Machine} {held : List Value} {e : Expr}
  {s : Segment} {k : String} {arg : Value}

theorem lookup_args {name : Name} {span : Span} (hargs : roles.args = some name)
    (hbound : ∀ name, roles.args = some name → ∃ b, m.scopes.find? name = some b ∧ b.value = arg) :
    Run.lookup p.names name span m = .ok arg m := by
  obtain ⟨b, hb, rfl⟩ := hbound name hargs
  exact Run.lookup_bound hb

/-- A key expression for a field of the argument reads the field, if its literals are finite. -/
theorem Denotes.eval_named {field : String} (held : List Value)
    (h : p.Denotes roles e (.named field)) (hfinite : e.hasFiniteKeys) :
    ∃ name span span', roles.args = some name ∧ Run.eval p.names held e =
      Run.lookup p.names name span >>= fun v => Run.property v field span' := by
  cases h with
  | field site base property hargs =>
      exact ⟨_, base.span, site.span, hargs, by simp only [Run.eval]; rfl⟩
  | entry site base key text hargs =>
      have hkey : ∀ span, Run.key (.text (p.names.lookup text)) span =
          pure (p.names.lookup text) := fun _ => rfl
      exact ⟨_, base.span, site.span, hargs, by simp only [Run.eval, pure_bind, hkey]; rfl⟩
  | item site base key bits hargs =>
      have hfinite : (Float.ofBits bits).isFinite := hfinite
      have hkey : ∀ span, Run.key (.number (Float.ofBits bits)) span =
          pure (Number.keyText (Float.ofBits bits)) := by
        intro span
        rw [Run.key, Value.key?, if_pos hfinite]
      exact ⟨_, base.span, site.span, hargs, by simp only [Run.eval, pure_bind, hkey]⟩

/-- A literal that is not finite spells no key. -/
theorem Denotes.finite_of_eval {field : String} {v : Value} {m' : Machine}
    (h : p.Denotes roles e (.named field)) (hv : Run.eval p.names held e m = .ok v m') :
    e.hasFiniteKeys := by
  cases h with
  | field | entry => rfl
  | item site base key bits hargs =>
      obtain ⟨u, m₁, k, hu, hk, hv⟩ := eval_index_ok hv rfl
      exact (Value.key?_number_iff.mp hk).1

/-- A key expression evaluates to what its segment spells for the argument, if its literals are
finite; otherwise it has no key. -/
theorem evalKey_iff (h : p.segment? roles e = some s)
    (hbound : ∀ name, roles.args = some name → ∃ b, m.scopes.find? name = some b ∧ b.value = arg) :
    p.evalKey held e m = .ok k m ↔ e.hasFiniteKeys ∧ s.Spells m.store arg k := by
  have hdenotes := denotes_iff.mpr h
  cases s with
  | key text =>
      cases hdenotes with
      | number site bits =>
          simp only [evalKey, Run.eval, pure_bind]
          exact Run.key_iff.trans Value.key?_number_iff
      | string site text =>
          simp only [evalKey, Run.eval, pure_bind, Run.key_iff, Value.key?]
          simp [Expr.hasFiniteKeys, Segment.Spells, nameText, eq_comm]
  | whole =>
      cases hdenotes with
      | args site hargs =>
          simp only [evalKey, Run.eval]
          rw [Run.bind_apply, lookup_args hargs hbound]
          simpa [Expr.hasFiniteKeys, Segment.Spells] using Run.key_iff
  | named field =>
      by_cases hfinite : e.hasFiniteKeys
      · obtain ⟨name, span, span', hargs, heval⟩ := hdenotes.eval_named held hfinite
        rw [evalKey, heval, bind_assoc, Run.bind_apply, lookup_args hargs hbound]
        refine Run.property_key_iff.trans ?_
        simp [hfinite, Segment.Spells]
      · refine iff_of_false (fun hrun => ?_) fun hkey => hfinite hkey.1
        obtain ⟨v, m₁, hv, -⟩ := Run.bind_ok hrun
        exact hfinite (hdenotes.finite_of_eval hv)

end Procedure

/-! ### Keys of the argument -/

/-- The key that a segment got before the run is the one that its expression spells, unless the
segment takes an entry of a map: then only the number of the entries can be read, under `size`. -/
theorem Segment.spells_iff_of_resolve {st : Store} {arg : Value} {s : Segment} {k : String}
    (h : s.resolve st arg = .ok k) :
    s.Spells st arg k ↔ ∀ field entries, s = .named field → st.mapEntries? arg = some entries →
      field = "size" ∧ (Value.number (Float.ofNat entries.size)).key? = some k := by
  cases s with
  | key text =>
      cases h
      exact iff_of_true rfl (by simp)
  | whole =>
      refine iff_of_true ?_ (by simp)
      rw [resolve] at h
      cases hkey : arg.key? with
      | none => simp [hkey] at h
      | some l =>
          simp only [hkey] at h
          cases h
          exact hkey
  | named field =>
      -- The field of the condition is the one of the segment.
      have hfields : ∀ {P : String → Table Value → Prop},
          (∀ f entries, Segment.named field = .named f → st.mapEntries? arg = some entries →
            P f entries) ↔ ∀ entries, st.mapEntries? arg = some entries → P field entries :=
        ⟨fun hall entries => hall field entries rfl, fun hall f entries hf => by
          cases hf
          exact hall entries⟩
      rw [hfields, Spells]
      cases arg with
      | scalar a => cases h
      | node r =>
          rw [Store.property, Store.mapEntries?]
          rw [resolve, Store.fields?] at h
          cases hbody : st.body r with
          | date ms => simp [hbody] at h
          | list items => simp [hbody] at h
          | map entries =>
              simp only [Body.property, Option.some.injEq, forall_eq']
              split
              · next hsize => simp [hsize]
              · next hsize => simp [hsize, Value.key?]
          | record cls fields =>
              refine iff_of_true ?_ (by simp)
              simp only [hbody] at h
              cases hget : fields.get? field with
              | none => simp [hget] at h
              | some v =>
                  cases hkey : v.key? with
                  | none => simp [hget, hkey] at h
                  | some l =>
                      simp only [hget, hkey] at h
                      cases h
                      simp [Body.property, Body.get?, Body.child?, hget, hkey]

namespace Procedure

variable {p : Procedure} {roles : Roles} {m : Machine} {e : Expr} {s : Segment} {k : String}
  {arg : Value}

/-- A key that a key expression got before the run is the one that it evaluates to, wherever the
parameter of the argument has the value it had then: exactly if the number literals of the
expression are finite and it does not take an entry of a map. The one entry it may take is one
called `size` that holds the number of the entries. -/
theorem evalKey_eq_resolve_iff (held : List Value) (hsegment : p.segment? roles e = some s)
    (hbound : ∀ name, roles.args = some name → ∃ b, m.scopes.find? name = some b ∧ b.value = arg)
    (hresolve : s.resolve m.store arg = .ok k) :
    p.evalKey held e m = .ok k m ↔
      e.hasFiniteKeys ∧
        ∀ field entries, s = .named field → m.store.mapEntries? arg = some entries →
          field = "size" ∧ (Value.number (Float.ofNat entries.size)).key? = some k := by
  rw [evalKey_iff hsegment hbound, Segment.spells_iff_of_resolve hresolve]

/-- A procedure that takes keys from its argument, and one from a literal beyond all numbers. -/
def keyed : String := "(s, a) => \x7b s[a.id] = 1; s[a.size] = 2; s[1e999] = 3 \x7d"

theorem keyed_parses : (parse keyed).toOption.isSome := by decide +kernel

def idOfArgs : Expr := .member default (.ident default ⟨2⟩) ⟨3⟩

def sizeOfArgs : Expr := .member default (.ident default ⟨2⟩) ⟨4⟩

def infinite : Expr := .number default 0x7FF0000000000000

def badges : Store :=
  ⟨#[⟨false, .record none (.ofList [("id", .text "x"), ("size", .text "y")])⟩,
    ⟨false, .map (.ofList [("id", .text "x"), ("size", .text "y")])⟩]⟩

def keyedWith (arg : Value) : Machine :=
  (ofText keyed keyed_parses).initial [] .undefined (some arg) badges

theorem keyedWith_bound (hroles : (ofText keyed keyed_parses).roles = .ok ⟨⟨1⟩, some ⟨2⟩⟩)
    (arg : Value) (name : Name) (hname : some (⟨2⟩ : Name) = some name) :
    ∃ b, (keyedWith arg).scopes.find? name = some b ∧ b.value = arg :=
  find?_initial_args hroles hname

theorem evalKey_eq_resolve_record :
    (ofText keyed keyed_parses).segment? ⟨⟨1⟩, some ⟨2⟩⟩ idOfArgs = some (.named "id") ∧
      (Segment.named "id").resolve badges (.node ⟨0⟩) = .ok "x" ∧
      (ofText keyed keyed_parses).evalKey [] idOfArgs (keyedWith (.node ⟨0⟩)) =
        .ok "x" (keyedWith (.node ⟨0⟩)) := by
  obtain ⟨hroles, hsegment⟩ : (ofText keyed keyed_parses).roles = .ok ⟨⟨1⟩, some ⟨2⟩⟩ ∧
      (ofText keyed keyed_parses).segment? ⟨⟨1⟩, some ⟨2⟩⟩ idOfArgs = some (.named "id") := by
    decide +kernel
  have hresolve : (Segment.named "id").resolve (keyedWith (.node ⟨0⟩)).store (.node ⟨0⟩) =
      .ok "x" := by decide +kernel
  exact ⟨hsegment, hresolve,
    (evalKey_eq_resolve_iff [] hsegment (keyedWith_bound hroles _) hresolve).mpr ⟨rfl, nofun⟩⟩

/-- A key expression that got a key before the run and evaluates to another one, or to none. -/
def Splits (e : Expr) (arg : Value) : Prop :=
  ∃ s k, (ofText keyed keyed_parses).segment? ⟨⟨1⟩, some ⟨2⟩⟩ e = some s ∧
    s.resolve badges arg = .ok k ∧
    ∀ held, (ofText keyed keyed_parses).evalKey held e (keyedWith arg) ≠ .ok k (keyedWith arg)

/-- Every exception occurs. -/
theorem splits_map_infinite :
    Splits idOfArgs (.node ⟨1⟩) ∧ Splits sizeOfArgs (.node ⟨1⟩) ∧
      Splits infinite (.node ⟨0⟩) := by
  obtain ⟨hroles, hid, hsize, hinfinite⟩ :
      (ofText keyed keyed_parses).roles = .ok ⟨⟨1⟩, some ⟨2⟩⟩ ∧
        (ofText keyed keyed_parses).segment? ⟨⟨1⟩, some ⟨2⟩⟩ idOfArgs = some (.named "id") ∧
        (ofText keyed keyed_parses).segment? ⟨⟨1⟩, some ⟨2⟩⟩ sizeOfArgs = some (.named "size") ∧
        (ofText keyed keyed_parses).segment? ⟨⟨1⟩, some ⟨2⟩⟩ infinite = some (.key "Infinity") := by
    decide +kernel
  have hsplits : ∀ {e arg s k}, (ofText keyed keyed_parses).segment? ⟨⟨1⟩, some ⟨2⟩⟩ e = some s →
      s.resolve badges arg = .ok k → ¬ (e.hasFiniteKeys ∧ s.Spells badges arg k) → Splits e arg :=
    fun hsegment hresolve hnot => ⟨_, _, hsegment, hresolve, fun held hrun =>
      hnot ((evalKey_iff hsegment (keyedWith_bound hroles _)).mp hrun)⟩
  refine ⟨?_, ?_, ?_⟩
  · refine hsplits (k := "x") hid (by decide +kernel) fun h => ?_
    exact absurd h.2 (by rw [Segment.Spells]; decide +kernel)
  · refine hsplits (k := "y") hsize (by decide +kernel) fun h => ?_
    exact absurd h.2 (by rw [Segment.Spells]; decide +kernel)
  · refine hsplits (k := "Infinity") hinfinite (by decide +kernel) fun h => ?_
    exact absurd h.1 (by decide +kernel)

end Procedure

end PathCopy
