import Archives.Ena.Evaluator
import Archives.Ena.Model.Structured
/-!
# ena — unwinding

The machine and the structured control are alike, as long as no loop is
left by a return. In a situation, the machine has a current unwind point,
a stack below it, frames and a scope; what ends normally leaves all of
them as they were, and what does not is a jump to the current point. A
return that a loop receives is sent on to the current unwind point, which
is the loop's own: the machine never comes back from it.
-/

namespace Archives.Ena.Eval

open Call Archives.Ena.Eval.Machine Structured

/-! ## Situations -/

/-- Where the machine is: its current unwind point and those below it, the
frames and the scope. -/
structure Situation where
  point : UnwindPoint
  prev : List UnwindPoint
  frames : List (Option Func)
  scope : Option Nat

namespace Situation

/-- The control state of the machine there. -/
def unwind (i : Situation) : Unwind := ⟨i.point :: i.prev, i.frames⟩

/-- The machine is in the situation, and its state is otherwise that of
the structured evaluation. -/
def States (i : Situation) (s : State Unwind) (s' : State Nat) : Prop :=
  s'.control = 0 ∧ s'.currentScope = i.scope ∧ s = s'.withControl i.unwind

/-- The jump of the machine is the way the structured evaluation leaves. -/
inductive Exits (i : Situation) : Jump → State Unwind → Exit → State Nat → Prop
  | ret {v : Value} {s : State Nat} : s.control = 0 → s.currentScope = i.scope →
      Exits i (.unwind i.point.address .ret)
        (s.leaveScope.withControl ⟨{ i.point with retValue := v } :: i.prev, i.frames⟩) (.ret v) s
  | brk {s : State Nat} : s.control = 0 → s.currentScope = i.scope →
      Exits i (.unwind i.point.address .brk) (s.withControl i.unwind) .brk s
  | cont {s : State Nat} : s.control = 0 → s.currentScope = i.scope →
      Exits i (.unwind i.point.address .cont) (s.withControl i.unwind) .cont s
  | panic {e : Error} {s : State Nat} {u : Unwind} : s.control = 0 →
      Exits i (.panic e) (s.withControl u) (.panic e) s

/-- The situation after `PUSH_UNWIND_POINT`, and `PUSH_FRAME` if there is a
function. -/
def push (i : Situation) (func : Option Func) : Situation :=
  ⟨⟨i.unwind.points.length, .undefined⟩, i.point :: i.prev,
    func.elim i.frames fun f => some f :: i.frames, i.scope⟩

end Situation

/-- The machine and the structured control, in a situation of the machine;
the machine is lost once a loop has been left by a return. -/
def unwindLink : Link Unwind Nat Jump Exit where
  Situation := Situation
  enter := fun i scope => { i with scope := some scope }
  states := Situation.States
  errors := Situation.Exits
  lost := fun count => count ≠ 0

/-- Only a panic leaves what takes every other jump. -/
inductive Panics : Jump → State Unwind → Exit → State Nat → Prop
  | panic {e : Error} {s : State Nat} {u : Unwind} : s.control = 0 →
      Panics (.panic e) (s.withControl u) (.panic e) s

variable {s : State Unwind} {e' : Exit} {s' : State Nat} {e : Jump}

theorem Panics.exits (h : Panics e s e' s') (i : Situation) : i.Exits e s e' s' := by
  obtain ⟨h⟩ := h
  exact .panic h

/-! ## Calls -/

/-- What the machine has when the body of a call is over: the point and
the frame of the call on top, and whatever scope. -/
def BodyOver (i : Situation) (func : Func) (s : State Unwind) (s' : State Nat) : Prop :=
  s'.control = 0 ∧ ∃ point scope, s = { s' with currentScope := scope }.withControl
    ⟨point :: i.point :: i.prev, some func :: i.frames⟩

theorem respects_unwindLink : unwindLink.Respects .panic .panic where
  reads := by
    rintro i s s' ⟨-, -, rfl⟩
    exact ⟨rfl, rfl, rfl, rfl⟩
  heap := by
    rintro i s s' heap ⟨hcount, hscope, rfl⟩
    exact ⟨hcount, hscope, rfl⟩
  currentScope := by
    rintro i s s' scope ⟨hcount, -, rfl⟩
    exact ⟨hcount, rfl, rfl⟩
  currentClass := by
    rintro i s s' cls ⟨hcount, hscope, rfl⟩
    exact ⟨hcount, hscope, rfl⟩
  self := by
    rintro i s s' v ⟨hcount, hscope, rfl⟩
    exact ⟨hcount, hscope, rfl⟩
  panic := by
    rintro i s s' e ⟨hcount, -, rfl⟩
    exact .panic hcount

/-- The situation in the body of a call, in whatever scope. -/
def Situation.inCall (i : Situation) (func : Func) (scope : Option Nat) : Situation :=
  { i.push (some func) with scope := scope }

variable {i : Situation}

/-- The machine takes a step of its own, into a situation with the same
scope. -/
theorem states_of_step {j : Situation} {α : Type} {m : Machine.Run α} {a : α}
    (hscope : j.scope = i.scope)
    (hrun : ∀ s : State Nat, m.run (s.withControl i.unwind) = .ok (.ok a, s.withControl j.unwind)) :
    ∀ s s', i.States s s' → ∃ t, m.run s = .ok (.ok a, t) ∧ j.States t s' := by
  rintro s s' ⟨hcount, hs, rfl⟩
  exact ⟨_, hrun s', hcount, hs.trans hscope.symm, rfl⟩

theorem bodyOver_of_states {func : Func} (scope : Option Nat)
    (h : (i.inCall func scope).States s s') : BodyOver i func s s' := by
  obtain ⟨hcount, -, rfl⟩ := h
  exact ⟨hcount, _, s'.currentScope, rfl⟩

/-- A jump to the point of a function is the function's. -/
theorem catchJump_self {α : Type} (me : Nat) (handler : UnwindType → Machine.Run α)
    (type : UnwindType) :
    catchJump me handler (.unwind me type) = handler type :=
  if_pos rfl

/-- `if ((unwind_type = EXEC_UNWIND_POINT()) == 0)` in `call_func`: every
jump to the point of the call is taken. -/
theorem matches_callHandler {func : Func} (scope : Option Nat)
    (h : (i.inCall func scope).Exits e s e' s') :
    Matches (BodyOver i func) i.Exits (fun s => s.control ≠ 0)
      ((catchJump (i.push (some func)).point.address onReturn e).run s) ((onExit e').run s') := by
  cases h with
  | @ret v s hcount _ =>
    have hrun := catchJump_self (i.push (some func)).point.address onReturn .ret
    exact hrun ▸ .value ⟨hcount, _, _, rfl⟩
  | brk hcount _ =>
    have hrun := catchJump_self (i.push (some func)).point.address onReturn .brk
    exact hrun ▸ .value ⟨hcount, _, _, rfl⟩
  | cont hcount _ =>
    have hrun := catchJump_self (i.push (some func)).point.address onReturn .cont
    exact hrun ▸ .value ⟨hcount, _, _, rfl⟩
  | panic hcount => exact .error (.panic hcount)

theorem lost_onExit (e : Exit) (s : State Nat) (h : s.control ≠ 0) :
    Lost (fun s => s.control ≠ 0) ((onExit e).run s) := by
  cases e <;> exact h

/-- **A call keeps the situation**, whichever way its body ends. -/
theorem sim_machine_callFunc (i : Situation) (func : Func) (body : Nat → Machine.Run Value)
    (body' : Nat → Structured.Run Value)
    (hbody : ∀ i scope, unwindLink.BodySim i scope (body scope) (body' scope)) :
    unwindLink.Sim i (Machine.callFunc func body) (Structured.callFunc func body') := by
  refine sim_read_bind (L := unwindLink) (b := i.scope)
    (J := fun scope => Situation.States { i with scope := scope }) ?_ fun callerScope => ?_
  · rintro s s' ⟨-, hscope, rfl⟩
    exact ⟨hscope, hscope⟩
  refine .bind (sim_onHeap respects_unwindLink _) fun newScope => ?_
  -- the machine pushes the point and the frame of the call
  refine .left_step (states_of_step (i := i) (j := i.push none) rfl fun _ => rfl) ?_
  refine .left_step (states_of_step (j := i.push (some func)) rfl fun _ => rfl) ?_
  refine .left_step (states_of_step (j := i.push (some func)) rfl fun _ => rfl) ?_
  refine .bind (J := BodyOver i func) ?_ fun retValue => ?_
  · refine .handle
      ((hbody (i.push (some func)) newScope).weaken (fun _ _ h => h) ?_ fun _ _ _ _ h => h) ?_
      lost_onExit
    · rintro s s' (h | h)
      · exact bodyOver_of_states i.scope h
      · exact bodyOver_of_states (some newScope) h
    · rintro e s e' s' (h | h)
      · exact matches_callHandler i.scope h
      · exact matches_callHandler (some newScope) h
  · -- and takes them off again
    refine ⟨?_, fun s' hs => hs⟩
    rintro s s' ⟨hcount, point, scope, rfl⟩
    exact .value ⟨hcount, rfl, rfl⟩

/-! ## Loops -/

/-- A return sent on to the loop's own point goes round for ever. -/
theorem onUnwind_ret (point : UnwindPoint) {prev : List UnwindPoint}
    (h : s.control.points = point :: prev) (k : Nat) :
    (onUnwind point.address k .ret).run s = .error .outOfFuel := by
  induction k with
  | zero => rfl
  | succ k ih =>
    have hpoint : currentUnwindPoint.run s = .ok (.ok point, s) := by
      obtain ⟨heap, scope, cls, self, points, frames⟩ := s
      cases h
      rfl
    rw [onUnwind, Call.run_bind, hpoint]
    simp only [if_pos]
    exact ih

theorem onUnwind_brk (me k : Nat) : onUnwind me k .brk = pure false := by
  cases k <;> rfl

theorem onUnwind_cont (me k : Nat) : onUnwind me k .cont = pure true := by
  cases k <;> rfl

/-- The branch for jumps in `eval_WHILE`: `break` and `continue` are taken,
and a return loses the machine. -/
theorem matches_loopHandler {k : Nat} (h : (i.push none).Exits e s e' s') :
    Matches (i.push none).States Panics (fun s => s.control ≠ 0)
      ((catchJump (i.push none).point.address (onUnwind (i.push none).point.address k) e).run s)
      ((onLoopExit e').run s') := by
  cases h with
  | @ret v s hcount _ =>
    rw [catchJump_self, onUnwind_ret { (i.push none).point with retValue := v } rfl]
    exact .stop (Nat.succ_ne_zero _)
  | brk hcount hscope =>
    rw [catchJump_self, onUnwind_brk]
    exact .value ⟨hcount, hscope, rfl⟩
  | cont hcount hscope =>
    rw [catchJump_self, onUnwind_cont]
    exact .value ⟨hcount, hscope, rfl⟩
  | panic hcount => exact .error (.panic hcount)

theorem lost_onLoopExit (e : Exit) (s : State Nat) (h : s.control ≠ 0) :
    Lost (fun s => s.control ≠ 0) ((onLoopExit e).run s) := by
  cases e with
  | ret v => exact Nat.succ_ne_zero _
  | brk => exact h
  | cont => exact h
  | panic e => exact h

theorem sim_machine_whileLoop (i : Situation) {cond stmts : Machine.Run Value}
    {cond' stmts' : Structured.Run Value} (hcond : ∀ i, unwindLink.Sim i cond cond')
    (hstmts : ∀ i, unwindLink.Sim i stmts stmts') (k : Nat) :
    Simulates (i.push none).States (i.push none).States Panics (fun s => s.control ≠ 0)
      (whileLoop (i.push none).point.address cond stmts k) (whileLoop cond' stmts' k) := by
  induction k with
  | zero => exact .stop _ _
  | succ k ih =>
    refine .bind (J := (i.push none).States) ?_ fun again =>
      .ite ih (.pure ())
    exact .handle (sim_whileRound (hcond (i.push none)) (hstmts (i.push none)))
      (fun _ _ _ _ => matches_loopHandler) lost_onLoopExit

/-- **A loop keeps the situation**, unless it is left by a return. -/
theorem sim_machine_evalWhile (i : Situation) (k : Nat) (cond : Machine.Run Value)
    (cond' : Structured.Run Value) (stmts : Machine.Run Value) (stmts' : Structured.Run Value)
    (hcond : ∀ i, unwindLink.Sim i cond cond') (hstmts : ∀ i, unwindLink.Sim i stmts stmts') :
    unwindLink.Sim i (evalWhile k cond stmts) (evalWhile k cond' stmts') := by
  refine .left_step (states_of_step (i := i) (j := i.push none) rfl fun _ => rfl) ?_
  refine .left_step (states_of_step (j := i.push none) rfl fun _ => rfl) ?_
  have hloop := (sim_machine_whileLoop i hcond hstmts k).weaken (fun _ _ h => h) (fun _ _ h => h)
    fun _ _ _ _ h => Panics.exits h i
  refine .bind hloop fun _ => ⟨?_, fun s' hs => hs⟩
  rintro s s' ⟨hcount, hscope, rfl⟩
  exact .value ⟨hcount, hscope, rfl⟩

/-- **The machine and the structured control are alike.** -/
theorem alike_machine_structured : machine.Alike unwindLink 0 structured where
  respects := respects_unwindLink
  callFunc := sim_machine_callFunc
  evalWhile := sim_machine_evalWhile
  unwindReturn := by
    refine fun i v => ⟨?_, fun s' hs => hs⟩
    rintro s s' ⟨hcount, hscope, rfl⟩
    exact .error (.ret hcount hscope)
  unwindBreak := by
    refine fun i => ⟨?_, fun s' hs => hs⟩
    rintro s s' ⟨hcount, hscope, rfl⟩
    exact .error (.brk hcount hscope)
  unwindContinue := by
    refine fun i => ⟨?_, fun s' hs => hs⟩
    rintro s s' ⟨hcount, hscope, rfl⟩
    exact .error (.cont hcount hscope)

/-! ## Fuel -/

section MoreFuel

variable {i : (fuelLink Unwind Jump).Situation}

theorem sim_catchJump {α : Type} (me : Nat) {h h' : UnwindType → Machine.Run α}
    (hh : ∀ type, (fuelLink Unwind Jump).Sim i (h type) (h' type)) (jump : Jump) :
    (fuelLink Unwind Jump).Sim i (catchJump me h jump) (catchJump me h' jump) := by
  cases jump with
  | unwind point type => exact .ite (hh type) (sim_refl _)
  | panic e => exact sim_refl _

theorem sim_onUnwind (me k : Nat) (type : UnwindType) :
    (fuelLink Unwind Jump).Sim i (onUnwind me k type) (onUnwind me (k + 1) type) := by
  induction k with
  | zero =>
    cases type with
    | ret => exact sim_stop _
    | brk => exact sim_refl _
    | cont => exact sim_refl _
  | succ k ih =>
    cases type with
    | ret => exact .bind (sim_refl _) fun point => .ite ih (sim_refl _)
    | brk => exact sim_refl _
    | cont => exact sim_refl _

theorem sim_whileLoop_machine (me : Nat) {cond cond' stmts stmts' : Machine.Run Value}
    (hcond : (fuelLink Unwind Jump).Sim i cond cond')
    (hstmts : (fuelLink Unwind Jump).Sim i stmts stmts') (k : Nat) :
    (fuelLink Unwind Jump).Sim i (whileLoop me cond stmts k)
      (whileLoop me cond' stmts' (k + 1)) := by
  induction k with
  | zero => exact sim_stop _
  | succ k ih =>
    refine .bind ?_ fun again => .ite ih (sim_refl _)
    exact sim_handle (sim_whileRound hcond hstmts) fun e => sim_catchJump me (sim_onUnwind me k) e

end MoreFuel

theorem sim_whileLoop_structured {i : (fuelLink Nat Exit).Situation}
    {cond cond' stmts stmts' : Structured.Run Value} (hcond : (fuelLink Nat Exit).Sim i cond cond')
    (hstmts : (fuelLink Nat Exit).Sim i stmts stmts') (k : Nat) :
    (fuelLink Nat Exit).Sim i (whileLoop cond stmts k) (whileLoop cond' stmts' (k + 1)) := by
  induction k with
  | zero => exact sim_stop _
  | succ k ih =>
    refine .bind ?_ fun again => .ite ih (sim_refl _)
    exact sim_handle (sim_whileRound hcond hstmts) fun e => sim_refl _

theorem alike_machine : machine.Alike (fuelLink Unwind Jump) 1 machine where
  respects := respects_fuelLink _
  callFunc := by
    intro i func body body' hbody
    refine .bind (sim_refl _) fun callerScope => ?_
    refine .bind (sim_refl _) fun newScope => ?_
    refine .bind (sim_refl _) fun _ => ?_
    refine .bind (sim_refl _) fun _ => ?_
    refine .bind (sim_refl _) fun point => ?_
    refine .bind ?_ fun retValue => sim_refl _
    exact sim_handle (sim_of_bodySim (hbody i newScope)) fun e => sim_refl _
  evalWhile := by
    intro i k cond cond' stmts stmts' hcond hstmts
    refine .bind (sim_refl _) fun _ => ?_
    refine .bind (sim_refl _) fun point => ?_
    exact Simulates.bind (sim_whileLoop_machine _ (hcond i) (hstmts i) k) fun _ => sim_refl _
  unwindReturn := fun _ _ => sim_refl _
  unwindBreak := fun _ => sim_refl _
  unwindContinue := fun _ => sim_refl _

theorem alike_structured : structured.Alike (fuelLink Nat Exit) 1 structured where
  respects := respects_fuelLink _
  callFunc := by
    intro i func body body' hbody
    refine .bind (sim_refl _) fun callerScope => ?_
    refine .bind (sim_refl _) fun newScope => ?_
    refine .bind ?_ fun retValue => sim_refl _
    exact sim_handle (sim_of_bodySim (hbody i newScope)) fun e => sim_refl _
  evalWhile := by
    intro i k cond cond' stmts stmts' hcond hstmts
    exact Simulates.bind (sim_whileLoop_structured (hcond i) (hstmts i) k) fun _ => sim_refl _
  unwindReturn := fun _ _ => sim_refl _
  unwindBreak := fun _ => sim_refl _
  unwindContinue := fun _ => sim_refl _

variable (natives : Natives)

theorem stable_machineRun (node : Node) (vm : State Unwind) :
    Fuel.Stable (machineRun natives node vm) :=
  stable_evalNode natives alike_machine node vm

theorem stable_structuredRun (node : Node) (vm : State Unwind) :
    Fuel.Stable (structuredRun natives node vm) :=
  stable_evalNode natives alike_structured node (vm.withControl 0)

/-! ## The comparison -/

section Comparison

variable {vm : State Unwind} {point : UnwindPoint} {prev : List UnwindPoint}

def situationAt (vm : State Unwind) (point : UnwindPoint) (prev : List UnwindPoint) : Situation :=
  ⟨point, prev, vm.control.frames, vm.currentScope⟩

theorem unwind_situationAt (hvm : vm.control.points = point :: prev) :
    (situationAt vm point prev).unwind = vm.control := by
  rw [Situation.unwind, situationAt, ← hvm]

theorem corresponds_of_states (hvm : vm.control.points = point :: prev)
    (h : (situationAt vm point prev).States s s') (v : Value) :
    Corresponds vm (.ok v, s') (.ok v, s) := by
  obtain ⟨-, hscope, rfl⟩ := h
  rw [unwind_situationAt hvm]
  exact .value hscope

theorem corresponds_of_exits (hvm : vm.control.points = point :: prev)
    (h : (situationAt vm point prev).Exits e s e' s') :
    Corresponds vm (.error e', s') (.error e, s) := by
  cases h with
  | ret hcount hscope => exact .ret hvm hscope
  | brk hcount hscope => rw [unwind_situationAt hvm]; exact .brk hvm hscope
  | cont hcount hscope => rw [unwind_situationAt hvm]; exact .cont hvm hscope
  | panic hcount => exact .panic

/-- The two runs match, with whatever fuel. -/
theorem matches_run (natives : Natives) (node : Node) (vm : State Unwind)
    (hvm : vm.control.points = point :: prev) (k : Nat) :
    Matches (situationAt vm point prev).States (situationAt vm point prev).Exits
      (fun s => s.control ≠ 0) (machineRun natives node vm k) (structuredRun natives node vm k) := by
  refine (simulates_evalNode natives alike_machine_structured (fun _ _ => .stop _ _) k
    (situationAt vm point prev) node).run vm (vm.withControl 0) ⟨rfl, rfl, ?_⟩
  rw [unwind_situationAt hvm]
  rfl

/-- When both come back they correspond, and no loop was left by a return. -/
theorem corresponds_of_ok {natives : Natives} {node : Node} {k : Nat}
    {res : Except Jump Value × State Unwind} {out : Except Exit Value × State Nat}
    (hvm : vm.control.points = point :: prev) (hres : machineRun natives node vm k = .ok res)
    (hout : structuredRun natives node vm k = .ok out) :
    Corresponds vm out res ∧ out.2.control = 0 := by
  have h := matches_run natives node vm hvm k
  rw [hres, hout] at h
  cases h with
  | value hs => exact ⟨corresponds_of_states hvm hs _, hs.1⟩
  | error he => exact ⟨corresponds_of_exits hvm he, by cases he <;> assumption⟩

/-- **The machine computes what the structured semantics says exactly when
no loop is left by a return.** -/
theorem agrees_iff_leavesNoLoopByReturn (node : Node) (vm : State Unwind)
    (hpoint : vm.control.points ≠ []) :
    Agrees natives node vm ↔ LeavesNoLoopByReturn natives node vm := by
  obtain ⟨point, prev, hvm⟩ := List.exists_cons_of_ne_nil hpoint
  constructor
  · rintro ⟨hagrees, -⟩ out hout
    obtain ⟨res, ⟨k, hk⟩, -⟩ := hagrees out hout
    obtain ⟨j, hj⟩ := hout
    exact (corresponds_of_ok hvm (hk (k + j) (by omega)) (hj (k + j) (by omega))).2
  · intro hleaves
    constructor
    · intro out hout
      have hcount := hleaves out hout
      obtain ⟨k, hk⟩ := hout
      have hmatch := matches_run natives node vm hvm k
      have hout := hk k (Nat.le_refl k)
      cases hres : machineRun natives node vm k with
      | error x =>
        -- the machine is lost only after a return out of a loop
        rw [hres, hout] at hmatch
        cases hmatch with
        | stop hlost => exact absurd hcount hlost
      | ok res =>
        exact ⟨res, (stable_machineRun natives node vm).returns hres,
          (corresponds_of_ok hvm hres hout).1⟩
    · rintro res ⟨k, hk⟩
      have hres := hk k (Nat.le_refl k)
      have hmatch := matches_run natives node vm hvm k
      cases hout : structuredRun natives node vm k with
      | error x =>
        rw [hres, hout] at hmatch
        cases hmatch
      | ok out =>
        exact ⟨out, (stable_structuredRun natives node vm).returns hout,
          (corresponds_of_ok hvm hres hout).1⟩

end Comparison

/-! ## Programs -/

/-- The state in which `ena_eval` starts the program. -/
def entered (vm : State Unwind) (scope : Nat) : State Unwind :=
  { vm with
    currentScope := some scope
    control := ⟨⟨vm.control.points.length, .undefined⟩ :: vm.control.points, none :: vm.control.frames⟩ }

theorem run_enaEval (k scope : Nat) (tree : Node) (vm : State Unwind) :
    (enaEval natives k scope tree).run vm = ((evalNode natives machine k tree).handle
        (catchJump vm.control.points.length onUncaught)).run (entered vm scope) := rfl

/-- The error a program ends with that does not end normally. -/
def uncaught : Exit → Error
  | .panic e => e
  | .ret _ => runtimeError "uncaught unwind 1"
  | .brk => runtimeError "uncaught unwind 2"
  | .cont => runtimeError "uncaught unwind 3"

/-- **A program ends on the machine as it does in the structured
semantics**, with the heap that leaves: with a value, or with an error,
also if it ends by a `return`, `break` or `continue` that nothing takes. -/
theorem enaEval_of_structured {natives : Natives} {k scope : Nat} {tree : Node} {vm : State Unwind}
    {out : Except Exit Value × State Nat}
    (hout : structuredRun natives tree (entered vm scope) k = .ok out) (hcount : out.2.control = 0) :
    ∃ s, (enaEval natives k scope tree).run vm =
      .ok (out.1.mapError fun e => .panic (uncaught e), s) ∧ s.heap = out.2.heap := by
  have hmatch := matches_run natives tree (entered vm scope) rfl k
  rw [run_enaEval, Call.run_handle]
  rw [hout] at hmatch
  unfold machineRun at hmatch
  revert hmatch
  generalize (evalNode natives machine k tree).run (entered vm scope) = r
  intro hmatch
  cases hmatch with
  | value hs => exact ⟨_, rfl, by rw [hs.2.2]; rfl⟩
  | error he =>
    have hself := catchJump_self vm.control.points.length onUncaught
    cases he with
    | ret => exact ⟨_, by simp only [situationAt, hself]; rfl, rfl⟩
    | brk => exact ⟨_, by simp only [situationAt, hself]; rfl, rfl⟩
    | cont => exact ⟨_, by simp only [situationAt, hself]; rfl, rfl⟩
    | panic => exact ⟨_, rfl, rfl⟩
  | stop hlost => exact absurd hcount hlost

/-! ## A return out of a loop -/

/-- An interpreter that has just entered a module, without native code. -/
def emptyVm : State Unwind where
  heap := {
    scopes := [⟨[], none⟩], funcs := [], classes := [[], [], [], []], instances := []
    lists := [], maps := [], intClass := 0, stringClass := 1, listClass := 2, mapClass := 3 }
  currentScope := some 0
  currentClass := none
  self := .undefined
  control := ⟨[⟨0, .undefined⟩], [none]⟩

def noNatives : Natives where
  method := fun _ _ _ heap => (.ok .undefined, heap)
  func := fun _ _ heap => (.ok .undefined, heap)

/-- `func f() { stmts } f();` -/
def callOf (stmts : List Node) : Node :=
  .stmts [.funcStmt "f" [] (.stmts stmts), .call (.id "f") []]

/-- `while (true) { break; } return 1;` in a function: the two agree. -/
theorem agrees_of_break : emptyVm.control.points ≠ [] ∧ Agrees noNatives
        (callOf [.whileStmt .trueLit (.stmts [.breakStmt]), .returnStmt (some (.intLit 1))]) emptyVm := by
  refine ⟨by decide, (agrees_iff_leavesNoLoopByReturn _ _ _ (by decide)).2 ?_⟩
  intro out hout
  have hrun : ∃ out, structuredRun noNatives
      (callOf [.whileStmt .trueLit (.stmts [.breakStmt]), .returnStmt (some (.intLit 1))]) emptyVm 10 =
        .ok out ∧ out.2.control = 0 := ⟨_, rfl, rfl⟩
  obtain ⟨out', hout', hcount⟩ := hrun
  rw [hout.unique ((stable_structuredRun _ _ _).returns hout')]
  exact hcount

/-- **`while (true) { return 1; }` in a function**: the call returns 1 in
the structured semantics, and never on the machine. -/
theorem not_agrees_of_return_in_loop :
    ¬ Agrees noNatives (callOf [.whileStmt .trueLit (.stmts [.returnStmt (some (.intLit 1))])])
      emptyVm := by
  rintro ⟨hagrees, -⟩
  have hrun : ∃ out, structuredRun noNatives
      (callOf [.whileStmt .trueLit (.stmts [.returnStmt (some (.intLit 1))])]) emptyVm 10 = .ok out ∧
        out.2.control = 1 := ⟨_, rfl, rfl⟩
  obtain ⟨out, hout, hcount⟩ := hrun
  have hreturns := (stable_structuredRun _ _ _).returns hout
  obtain ⟨res, ⟨k, hk⟩, -⟩ := hagrees out hreturns
  obtain ⟨j, hj⟩ := hreturns
  have hzero := (corresponds_of_ok rfl (hk (k + j) (by omega)) (hj (k + j) (by omega))).2
  rw [hcount] at hzero
  exact absurd hzero (by decide)

/-- A program that calls a function with a loop. -/
theorem enaEval_of_structured_break : ∃ s, (enaEval noNatives 10 0 (callOf [.whileStmt .trueLit
    (.stmts [.breakStmt]), .returnStmt (some (.intLit 1))])).run emptyVm = .ok (.ok .undefined, s) := by
  obtain ⟨out, hout, hcount, hvalue⟩ : ∃ out, structuredRun noNatives (callOf [.whileStmt .trueLit
      (.stmts [.breakStmt]), .returnStmt (some (.intLit 1))]) (entered emptyVm 0) 10 = .ok out ∧
        out.2.control = 0 ∧ out.1 = .ok .undefined := ⟨_, rfl, rfl, rfl⟩
  obtain ⟨s, hs, -⟩ := enaEval_of_structured hout hcount
  rw [hvalue] at hs
  exact ⟨s, hs⟩

end Archives.Ena.Eval
