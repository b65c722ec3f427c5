import PathCopy.Proofs.Execution

/-!
A `return` ends the run, whatever blocks it stands in. What stands behind the first one is without
effect: a procedure runs as it does without it.
-/

namespace PathCopy

/-! ### Statements in the order of execution -/

mutual

/-- The statements that a statement consists of, blocks aside, in the order in which they would be
executed. -/
def Stmt.simple : Stmt → List Stmt
  | .block _ _ body => Stmt.simpleOfList body
  | s => [s]

def Stmt.simpleOfList : List Stmt → List Stmt
  | [] => []
  | s :: rest => s.simple ++ Stmt.simpleOfList rest

end

namespace ProcedureBody

def simple : ProcedureBody → List Stmt
  | .expr _ => []
  | .block _ body => Stmt.simpleOfList body

/-- A body without what stands behind its first `return`, at any depth. -/
def live : ProcedureBody → ProcedureBody
  | .expr value => .expr value
  | .block first body => .block first (Stmt.liveList body)

end ProcedureBody

/-- The statements up to the first `return`, this one included. -/
def Stmt.throughReturn (ss : List Stmt) : List Stmt := ss.take (ss.findIdx Stmt.returns + 1)

namespace Stmt

theorem throughReturn_append (ss ts : List Stmt) : throughReturn (ss ++ ts) =
    if ss.any returns then throughReturn ss else ss ++ throughReturn ts := by
  rw [throughReturn, throughReturn, throughReturn, List.findIdx_append]
  by_cases h : ss.any returns
  · have hlt : ss.findIdx returns < ss.length := List.findIdx_lt_length.mpr (by simpa using h)
    rw [if_pos h, if_pos hlt, List.take_append_of_le_length hlt]
  · have hge : ¬ ss.findIdx returns < ss.length := by
      rw [List.findIdx_lt_length]
      simpa using h
    rw [if_neg h, if_neg hge, show ts.findIdx returns + ss.length + 1 =
      ss.length + (ts.findIdx returns + 1) by omega, List.take_length_add_append]

theorem throughReturn_of_not {ss : List Stmt} (h : ¬ ss.any returns) : throughReturn ss = ss := by
  have happend := throughReturn_append ss []
  rw [if_neg h, List.append_nil] at happend
  exact happend.trans (List.append_nil ss)

theorem any_returns_simple :
    (∀ s : Stmt, s.simple.any returns = s.returns) ∧
      ∀ ss, (simpleOfList ss).any returns = someReturns ss := by
  apply simple.mutual_induct
  · intro span first body ih
    rw [simple, returns, ih]
  · intro s hs
    rw [simple]
    · exact Bool.or_false s.returns
    · exact hs
  · rfl
  · intro s rest ih ihrest
    rw [simpleOfList, List.any_append, ih, ihrest, someReturns]

/-- What is kept of statements is all there is up to the first `return`. -/
theorem simple_live :
    (∀ s : Stmt, s.live.simple = throughReturn s.simple) ∧
      ∀ ss, simpleOfList (liveList ss) = throughReturn (simpleOfList ss) := by
  apply live.mutual_induct
  · intro span first body ih
    rw [live, simple, simple, ih]
  · intro s hs
    rw [live]
    · cases s with
      | block span first body => exact (hs span first body rfl).elim
      | expr | declare | ret | empty => rfl
    · exact hs
  · rfl
  · intro s rest ih ihrest
    rw [liveList, simpleOfList, simpleOfList, ih, throughReturn_append, any_returns_simple.1]
    split
    · rw [simpleOfList, List.append_nil]
    · rename_i hs
      rw [throughReturn_of_not (by rwa [any_returns_simple.1]), ihrest]

end Stmt

/-! ### The run -/

namespace Run

variable {α β : Type} {names : NameTable} {held : List Value}

/-- What follows a run matters at the results that the run can have. -/
theorem bind_congr_ok {x : Run α} {f g : α → Run β}
    (h : ∀ m a m', x m = .ok a m' → f a = g a) : x >>= f = x >>= g := by
  funext m
  rw [bind_apply, bind_apply]
  cases hx : x m with
  | ok a m' => exact congrFun (h m a m' hx) m'
  | error e m' => rfl

/-- A block stops at its first statement that returns, so the ones behind it do not matter. -/
theorem exec_live :
    (∀ s, exec names held s.live = exec names held s) ∧
      ∀ ss, execList names held (Stmt.liveList ss) = execList names held ss := by
  apply Stmt.live.mutual_induct
  · intro span first body ih
    rw [Stmt.live, exec, exec, ih]
  · intro s hs
    rw [Stmt.live]
    exact hs
  · rfl
  · intro s rest ih ihrest
    rw [Stmt.liveList, execList, execList, ih]
    refine bind_congr_ok fun m flow m' hrun => ?_
    have hflow := exec_flow.1 s m flow m' hrun
    cases hs : s.returns with
    | true =>
        rw [hs, if_pos rfl] at hflow
        cases hflow
        rfl
    | false =>
        rw [hs, if_neg Bool.false_ne_true] at hflow
        cases hflow
        rw [if_neg Bool.false_ne_true]
        exact ihrest

theorem execBody_live (body : ProcedureBody) :
    execBody names held body.live = execBody names held body := by
  cases body with
  | expr value => rfl
  | block first body => rw [ProcedureBody.live, execBody, execBody, exec_live.2]

end Run

namespace Procedure

/-- A procedure has the result, the error and the store of the procedure whose body ends at the first
`return`, that is, of the one that has its simple statements up to there and no others. -/
theorem run_live {p q : Procedure} (hparams : q.params = p.params) (hnames : q.names = p.names)
    (hbody : q.body = p.body.live) :
    q.body.simple = Stmt.throughReturn p.body.simple ∧
      ∀ held captures state arg st,
        p.run held captures state arg st = q.run held captures state arg st := by
  constructor
  · rw [hbody]
    cases p.body with
    | expr value => rfl
    | block first body => exact Stmt.simple_live.2 body
  · intro held captures state arg st
    have hexecute : q.execute held captures state arg st = p.execute held captures state arg st := by
      simp only [execute, initial, parameterScope, captureScope, spareArgument, hparams, hnames,
        hbody, Run.execBody_live]
    rw [run, run, hparams, hexecute]

/-- A procedure that returns two blocks deep, and writes once more in doing so. -/
def leave : String :=
  "s => \x7b s.a = 'x'; \x7b let t = 'y'; \x7b return s.b = t; s.a = t \x7d s.b = s \x7d s.c = t \x7d"

theorem leave_parses : (parse leave).toOption.isSome := by decide +kernel

def bare : Store := ⟨#[⟨false, .record none (.ofList [])⟩]⟩

/-- Without the last three of its six statements. -/
def leaveEarly : Procedure :=
  { ofText leave leave_parses with body := (ofText leave leave_parses).body.live }

theorem run_live_leave :
    (ofText leave leave_parses).body.simple.length = 6 ∧ leaveEarly.body.simple.length = 3 ∧
      (ofText leave leave_parses).run [] [] (.node ⟨0⟩) none bare =
        leaveEarly.run [] [] (.node ⟨0⟩) none bare ∧
      ["a", "b", "c"].map (fun k =>
        ((leaveEarly.run [] [] (.node ⟨0⟩) none bare).2.property (.node ⟨0⟩) k).key?) =
          [some "x", some "y", none] := by
  obtain ⟨hsimple, hrun⟩ := run_live (p := ofText leave leave_parses) (q := leaveEarly) rfl rfl rfl
  obtain ⟨hlength, hlive, hfields⟩ : (ofText leave leave_parses).body.simple.length = 6 ∧
      (Stmt.throughReturn (ofText leave leave_parses).body.simple).length = 3 ∧
      ["a", "b", "c"].map (fun k =>
        ((leaveEarly.run [] [] (.node ⟨0⟩) none bare).2.property (.node ⟨0⟩) k).key?) =
          [some "x", some "y", none] := by
    decide +kernel
  refine ⟨hlength, ?_, hrun [] [] (.node ⟨0⟩) none bare, hfields⟩
  rw [hsimple]
  exact hlive

end Procedure

end PathCopy
