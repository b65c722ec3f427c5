import PathCopy.Proofs.Edits
import PathCopy.Proofs.Runs

/-!
Reads as functions of the store. To read a place is to look up its variable and to follow its steps,
and a read leaves the machine alone. Each step finds a scalar or a child of the container, so a read
sees nothing but what lies below the value of its variable.
-/

namespace PathCopy

namespace Body

def find (body : Body) : Step → Value
  | .key k => body.property k
  | .entry k => match body with
    | map entries => (entries.get? k).getD .undefined
    | _ => .undefined

/-- The step that leads to the child under a key. -/
def stepTo (key : String) : Body → Step
  | map _ => .entry key
  | _ => .key key

variable {body : Body} {key : String} {step : Step} {w : Value}

theorem find_cases (body : Body) (step : Step) :
    (∃ a, body.find step = .scalar a) ∨
      step = body.stepTo step.text ∧ body.child? step.text = some (body.find step) := by
  have hget : ∀ o : Option Value, (∃ a, o.getD .undefined = .scalar a) ∨
      o = some (o.getD .undefined) := by
    intro o
    cases o with
    | none => exact .inl ⟨_, rfl⟩
    | some v => exact .inr rfl
  cases step with
  | key k =>
      cases body with
      | date ms => exact .inl ⟨_, rfl⟩
      | record cls fields => exact (hget (fields.get? k)).imp id fun h => ⟨rfl, h⟩
      | map entries =>
          left
          rw [find, property]
          split
          · exact ⟨_, rfl⟩
          · exact ⟨_, rfl⟩
      | list items =>
          by_cases hlength : k = "length"
          · exact .inl ⟨_, by rw [find, property, get?, if_pos hlength]; rfl; simp⟩
          · have hfind : (list items).find (.key k) = ((list items).child? k).getD .undefined := by
              rw [find, property, get?, if_neg hlength]
              simp
            rw [hfind]
            exact (hget _).imp id fun h => ⟨rfl, h⟩
  | entry k =>
      cases body with
      | date ms => exact .inl ⟨_, rfl⟩
      | list items => exact .inl ⟨_, rfl⟩
      | record cls fields => exact .inl ⟨_, rfl⟩
      | map entries => exact (hget (entries.get? k)).imp id fun h => ⟨rfl, h⟩

theorem readIndex?_length : Number.readIndex? "length" = none := by decide

theorem find_stepTo (h : body.child? key = some w) : body.find (body.stepTo key) = w := by
  cases body with
  | date ms => cases h
  | map entries => exact congrArg (Option.getD · Value.undefined) h
  | record cls fields => exact congrArg (Option.getD · Value.undefined) h
  | list items =>
      have hkey : key ≠ "length" := by
        rintro rfl
        rw [child?, readIndex?_length] at h
        cases h
      rw [stepTo, find, property, get?, if_neg hkey, h]
      · rfl
      all_goals simp

end Body

namespace Store

/-- What a step of a read finds; a property of undefined and of null cannot be read. -/
def readStep (st : Store) (span : Span) (v : Value) : Step → Except EvalError Value
  | .key k =>
    if (st.kind v).isNullish then .error ⟨.readOfNullish k (st.kind v), span⟩
    else .ok (st.property v k)
  | .entry k => .ok (st.mapEntry v k)

/-- What a row of steps reads from a value. -/
def read (st : Store) (span : Span) (v : Value) : List Step → Except EvalError Value
  | [] => .ok v
  | step :: steps => do st.read span (← st.readStep span v step) steps

variable {st st' : Store} {counts : Array Nat} {span : Span} {v w : Value} {r : Ref} {step : Step}
  {steps : List Step} {a : Scalar}

theorem readStep_node : st.readStep span (.node r) step = .ok ((st.body r).find step) := by
  cases step with
  | key k =>
      have hkind : (st.kind (.node r)).isNullish = false := by
        rw [kind]
        cases st.body r <;> rfl
      rw [readStep, hkind]
      rfl
  | entry k =>
      rw [readStep, mapEntry, mapEntries?]
      cases st.body r <;> rfl

theorem read_append (st : Store) (span : Span) (v : Value) (steps others : List Step) :
    st.read span v (steps ++ others) =
      st.read span v steps >>= fun w => st.read span w others := by
  induction steps generalizing v with
  | nil => rfl
  | cons step steps ih =>
      rw [List.cons_append, read, read, bind_assoc]
      exact congrArg _ (funext fun w => ih w)

theorem readStep_scalar (h : st.readStep span (.scalar a) step = .ok w) : ∃ b, w = .scalar b := by
  cases step with
  | key k =>
      rw [readStep] at h
      split at h
      · cases h
      · cases h
        obtain ⟨b, hb⟩ | ⟨r, hr, -⟩ := st.property_cases (.scalar a) k
        · exact ⟨b, hb⟩
        · cases hr
  | entry k =>
      cases h
      exact ⟨_, rfl⟩

theorem within_of_read (h : st.read span v steps = .ok w) : st.Within [v] w := by
  induction steps generalizing v with
  | nil =>
      cases h
      exact within_of_mem List.mem_cons_self
  | cons step steps ih =>
      obtain ⟨u, hu, hrest⟩ := except_bind_ok h
      refine (ih hrest).trans fun x hx => ?_
      rw [List.mem_singleton.mp hx]
      cases v with
      | scalar a =>
          obtain ⟨b, rfl⟩ := readStep_scalar hu
          exact within_scalar b
      | node r =>
          rw [readStep_node] at hu
          cases hu
          obtain ⟨b, hb⟩ | ⟨-, hchild⟩ := (st.body r).find_cases step
          · exact hb ▸ within_scalar b
          · exact (within_of_mem List.mem_cons_self).reaches
              (reaches_of_mem_children (Body.mem_children_of_child? hchild))

theorem agreeBelow_scalar (st st' : Store) (a : Scalar) : st.AgreeBelow st' (.scalar a) :=
  fun _ h => nomatch reaches_scalar h

theorem AgreeBelow.find (h : st.AgreeBelow st' (.node r)) :
    st.AgreeBelow st' ((st.body r).find step) := by
  obtain ⟨a, ha⟩ | ⟨-, hchild⟩ := (st.body r).find_cases step
  · rw [ha]
    exact agreeBelow_scalar st st' a
  · exact h.child (Body.mem_children_of_child? hchild)

/-- Stores that agree below a value are read alike from there. -/
theorem AgreeBelow.read_eq (h : st.AgreeBelow st' v) :
    st'.read span v steps = st.read span v steps := by
  induction steps generalizing v with
  | nil => rfl
  | cons step steps ih =>
      cases v with
      | node r =>
          rw [read, read, readStep_node, readStep_node, h.body_eq]
          exact ih h.find
      | scalar a =>
          have hstep : st'.readStep span (.scalar a) step = st.readStep span (.scalar a) step := by
            cases step <;> rfl
          rw [read, read, hstep]
          cases hread : st.readStep span (.scalar a) step with
          | error e => rfl
          | ok w =>
              obtain ⟨b, rfl⟩ := readStep_scalar hread
              exact ih (agreeBelow_scalar st st' b)

theorem readStep_of_child (h : st.child counts v step = .ok w) :
    ∃ r, v = .node r ∧ st.Claimed counts r ∧ step = (st.body r).stepTo step.text ∧
      (st.body r).child? step.text = some w := by
  obtain ⟨r, rfl, hclaimed, hchild⟩ := child_ok h
  refine ⟨r, rfl, hclaimed, ?_, hchild⟩
  cases step with
  | key k =>
      cases hbody : st.body r with
      | map entries => simp [child, hbody] at h
      | _ => rfl
  | entry k =>
      cases hbody : st.body r with
      | map entries => rfl
      | _ => simp [child, hbody] at h

theorem read_of_follow (h : st.follow counts v steps = .ok w) : st.read span v steps = .ok w := by
  induction steps generalizing v with
  | nil =>
      cases h
      rfl
  | cons step steps ih =>
      obtain ⟨u, hchild, hrest⟩ := except_bind_ok h
      obtain ⟨r, rfl, -, hstep, hchild⟩ := readStep_of_child hchild
      have hfind : (st.body r).find step = u := by
        rw [hstep]
        exact Body.find_stepTo hchild
      rw [read, readStep_node, hfind]
      exact ih hrest

end Store

def Machine.read (m : Machine) (names : NameTable) (span : Span) (p : Place) :
    Except EvalError Value :=
  match m.scopes.find? p.root with
  | none => .error ⟨.undefinedVariable (names.lookup p.root), span⟩
  | some b => m.store.read span b.value p.steps

namespace Run

variable {α : Type}

/-- How a run ends, without the machine after it. -/
def outcome (x : Run α) (m : Machine) : Except EvalError α :=
  match x m with
  | .ok a _ => .ok a
  | .error e _ => .error e

theorem Still.eq {x : Run α} (hx : Still x) (m : Machine) : x m = match outcome x m with
    | .ok a => .ok a m
    | .error e => .error e m := by
  rw [outcome]
  cases hrun : x m with
  | ok a m' => rw [hx.ok hrun]
  | error e m' => rw [hx.error hrun]

theorem outcome_readSteps (span : Span) (v : Value) (steps : List Step) (m : Machine) :
    outcome (readSteps span v steps) m = m.store.read span v steps := by
  induction steps generalizing v with
  | nil => rfl
  | cons step steps ih =>
      cases step with
      | entry k => exact ih (m.store.mapEntry v k)
      | key k =>
          rw [outcome, readSteps, bind_apply, property, bind_apply, get_apply, Store.read,
            Store.readStep]
          by_cases hnullish : (m.store.kind v).isNullish
          · simp only [hnullish, if_true, fail_apply]
            rfl
          · simp only [hnullish]
            exact ih (m.store.property v k)

/-- To read a place is to look it up in the machine. -/
theorem outcome_readPlace (names : NameTable) (p : Place) (span : Span) (m : Machine) :
    outcome (readPlace names p span) m = m.read names span p := by
  rw [outcome, readPlace, bind_apply, Machine.read]
  cases hb : m.scopes.find? p.root with
  | none => simp [lookup, bind_apply, hb]
  | some b =>
      rw [lookup_bound hb]
      exact outcome_readSteps span b.value p.steps m

end Run

end PathCopy
