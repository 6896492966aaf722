import Archives.Common.Fuel
import Archives.Ena.Model.Eval
/-!
# ena — control as the language has it

What the unwind points are for. A statement ends normally, by returning a
value, by `break` or by `continue`. A call ends what its body returns, a
loop takes the `break` and `continue` of its body and hands a return on.
There is no stack to keep in order: the evaluator with this control only
says what each construct makes of the way its parts have ended. Along
with that it counts the loops that were left by a return.

`Agrees` compares the two controls on one run of the evaluator.
-/

namespace Archives.Ena.Eval

open Call

/-- The ways a statement ends other than normally; `panic` ends the whole
program. -/
inductive Exit
  | ret (value : Value)
  | brk
  | cont
  | panic (error : Error)

namespace Structured

/-- A part of the evaluation, with the number of loops left by a return. -/
abbrev Run (α : Type) := Evaluation Nat Exit α

/-- What a call makes of a body that did not end normally: it gives the
value returned. A `break` or `continue` ends the call without a value, it
leaves no loop of the caller. -/
def onExit : Exit → Run Value
  | .ret value => pure value
  | .brk => pure .undefined
  | .cont => pure .undefined
  | .panic e => fail (.panic e)

def callFunc (func : Func) (body : Nat → Run Value) : Run Value := do
  let callerScope ← read State.currentScope
  let newScope ← onHeap Exit.panic (Heap.createScope func.scope)
  let retValue ← (body newScope).handle onExit
  setCurrentScope callerScope
  setSelf .undefined
  return retValue

/-- What a loop makes of a round that did not end normally: whether it goes
on. A return is handed on, and counted. -/
def onLoopExit : Exit → Run Bool
  | .brk => pure false
  | .cont => pure true
  | .ret value => do
    update fun s => { s with control := s.control + 1 }
    fail (.ret value)
  | .panic e => fail (.panic e)

/-- One round of a loop: whether it goes on. -/
def round (condition stmts : Run Value) : Run Bool :=
  (whileRound condition stmts).handle onLoopExit

def whileLoop (condition stmts : Run Value) : Nat → Run Unit
  | 0 => stop .outOfFuel
  | k + 1 => do
    let again ← round condition stmts
    if again then whileLoop condition stmts k else pure ()

/-- A loop statement has no value. -/
def evalWhile (k : Nat) (condition stmts : Run Value) : Run Value := do
  whileLoop condition stmts k
  return .undefined

end Structured

def structured : Control Nat Exit where
  panic := Exit.panic
  callFunc := Structured.callFunc
  evalWhile := Structured.evalWhile
  unwindReturn := fun value => fail (.ret value)
  unwindBreak := fail .brk
  unwindContinue := fail .cont

/-! ## The comparison -/

def State.withControl {κ κ' : Type} (s : State κ) (control : κ') : State κ' :=
  { heap := s.heap, currentScope := s.currentScope, currentClass := s.currentClass, self := s.self,
    control := control }

/-- The scope `return` leaves the machine in until the call is over. -/
def State.leaveScope {κ : Type} (s : State κ) : State κ :=
  { s with currentScope := s.currentScope.bind s.heap.parentOf }

/-- **The machine, started in `vm`, ends as the structured evaluation
does.** Whatever ends normally leaves the unwind points, the frames and
the scope as they were; a return is a jump to the current unwind point
with the value in it; `break` and `continue` are jumps to it. -/
inductive Corresponds (vm : State Unwind) :
    Except Exit Value × State Nat → Except Jump Value × State Unwind → Prop
  | value {v : Value} {s : State Nat} : s.currentScope = vm.currentScope →
      Corresponds vm (.ok v, s) (.ok v, s.withControl vm.control)
  | ret {v : Value} {s : State Nat} {point : UnwindPoint} {prev : List UnwindPoint} :
      vm.control.points = point :: prev → s.currentScope = vm.currentScope →
      Corresponds vm (.error (.ret v), s) (.error (.unwind point.address .ret),
        s.leaveScope.withControl ⟨{ point with retValue := v } :: prev, vm.control.frames⟩)
  | brk {s : State Nat} {point : UnwindPoint} {prev : List UnwindPoint} :
      vm.control.points = point :: prev → s.currentScope = vm.currentScope →
      Corresponds vm (.error .brk, s)
        (.error (.unwind point.address .brk), s.withControl vm.control)
  | cont {s : State Nat} {point : UnwindPoint} {prev : List UnwindPoint} :
      vm.control.points = point :: prev → s.currentScope = vm.currentScope →
      Corresponds vm (.error .cont, s)
        (.error (.unwind point.address .cont), s.withControl vm.control)
  | panic {e : Error} {s : State Nat} {u : Unwind} :
      Corresponds vm (.error (.panic e), s) (.error (.panic e), s.withControl u)

variable (natives : Natives) (node : Node) (vm : State Unwind)

/-- The evaluation of a node on the machine. -/
def machineRun (k : Nat) : Except OutOfFuel (Except Jump Value × State Unwind) :=
  (evalNode natives machine k node).run vm

/-- The structured evaluation of a node; no loop has been left yet. -/
def structuredRun (k : Nat) : Except OutOfFuel (Except Exit Value × State Nat) :=
  (evalNode natives structured k node).run (vm.withControl 0)

/-- **The machine computes what the structured semantics says**: it comes
back exactly when that does, and as that does. -/
def Agrees : Prop :=
  (∀ out, Fuel.Returns (structuredRun natives node vm) out →
    ∃ res, Fuel.Returns (machineRun natives node vm) res ∧ Corresponds vm out res) ∧
  ∀ res, Fuel.Returns (machineRun natives node vm) res →
    ∃ out, Fuel.Returns (structuredRun natives node vm) out ∧ Corresponds vm out res

/-- If the structured evaluation comes back, no loop in it was left by a
return. -/
def LeavesNoLoopByReturn : Prop :=
  ∀ out, Fuel.Returns (structuredRun natives node vm) out → out.2.control = 0

end Archives.Ena.Eval
