import Archives.Common.Fuel
import Archives.Ena.Model.Eval
/-!
# ena — the evaluator over two controls

The evaluator is one text over its control. Whatever relation the parts
of two controls respect, the evaluator over the one and the evaluator over
the other respect too: `simulates_evalNode`, by induction on the fuel with
one lemma for each node. It is used for two pairs of controls: the machine
and the structured control, and the machine with itself, where it says
that more fuel does not change a result.
-/

namespace Archives.Ena.Eval

open Call Simulates

variable {κ κ' ε ε' α : Type}

/-- How the states and the errors of two evaluations are related, in the
situation `i`. `enter` is the situation after the current scope has been
set; `lost` are the states of the second control in which the first is no
longer followed. -/
structure Link (κ κ' ε ε' : Type) where
  Situation : Type
  enter : Situation → Nat → Situation
  states : Situation → State κ → State κ' → Prop
  errors : Situation → ε → State κ → ε' → State κ' → Prop
  lost : κ' → Prop

namespace Link

variable (L : Link κ κ' ε ε')

/-- The parts of the evaluation match in the situation, and leave it as it
was. -/
def Sim (i : L.Situation) (m : Evaluation κ ε α) (m' : Evaluation κ' ε' α) : Prop :=
  Simulates (L.states i) (L.states i) (L.errors i) (fun s => L.lost s.control) m m'

/-- The bodies of a call match: they may have set the current scope. -/
def BodySim (i : L.Situation) (scope : Nat) (m : Evaluation κ ε α) (m' : Evaluation κ' ε' α) :
    Prop :=
  Simulates (L.states i) (fun s s' => L.states i s s' ∨ L.states (L.enter i scope) s s')
    (fun e s e' s' => L.errors i e s e' s' ∨ L.errors (L.enter i scope) e s e' s')
    (fun s => L.lost s.control) m m'

end Link

/-- The link is respected by what the evaluator itself does: related
states agree in what it reads and stay related when it writes, and its
panics are related. -/
structure Link.Respects (L : Link κ κ' ε ε') (panic : Error → ε) (panic' : Error → ε') : Prop where
  reads : ∀ i s s', L.states i s s' → s.heap = s'.heap ∧ s.currentScope = s'.currentScope ∧
    s.currentClass = s'.currentClass ∧ s.self = s'.self
  heap : ∀ i s s' heap, L.states i s s' →
    L.states i { s with heap := heap } { s' with heap := heap }
  currentScope : ∀ i s s' scope, L.states i s s' →
    L.states (L.enter i scope) { s with currentScope := some scope }
      { s' with currentScope := some scope }
  currentClass : ∀ i s s' cls, L.states i s s' →
    L.states i { s with currentClass := cls } { s' with currentClass := cls }
  self : ∀ i s s' v, L.states i s s' → L.states i { s with self := v } { s' with self := v }
  panic : ∀ i s s' e, L.states i s s' → L.errors i (panic e) s (panic' e) s'

/-- **The two controls are alike**, up to the link: each part of the one
matches that part of the other. The second gets `d` more fuel. -/
structure Control.Alike (L : Link κ κ' ε ε') (d : Nat) (ctl : Control κ ε) (ctl' : Control κ' ε') :
    Prop where
  respects : L.Respects ctl.panic ctl'.panic
  callFunc : ∀ i func body body', (∀ i scope, L.BodySim i scope (body scope) (body' scope)) →
    L.Sim i (ctl.callFunc func body) (ctl'.callFunc func body')
  evalWhile : ∀ i k cond cond' stmts stmts', (∀ i, L.Sim i cond cond') →
    (∀ i, L.Sim i stmts stmts') →
    L.Sim i (ctl.evalWhile k cond stmts) (ctl'.evalWhile (k + d) cond' stmts')
  unwindReturn : ∀ i v, L.Sim i (ctl.unwindReturn v) (ctl'.unwindReturn v)
  unwindBreak : ∀ i, L.Sim i ctl.unwindBreak ctl'.unwindBreak
  unwindContinue : ∀ i, L.Sim i ctl.unwindContinue ctl'.unwindContinue

section Congruence

variable {L : Link κ κ' ε ε'} {d : Nat} {ctl : Control κ ε} {ctl' : Control κ' ε'}
variable {natives : Natives} {eval : Node → Evaluation κ ε Value}
  {eval' : Node → Evaluation κ' ε' Value}
variable {i : L.Situation}

/-! ## The evaluator's own steps -/

theorem sim_read (f : State κ → α) (f' : State κ' → α)
    (h : ∀ s s', L.states i s s' → f s = f' s') : L.Sim i (read f) (read f') := by
  refine ⟨fun s s' hs => ?_, fun s' hs => hs⟩
  show Matches _ _ _ (.ok (.ok (f s), s)) (.ok (.ok (f' s'), s'))
  rw [h s s' hs]
  exact .value hs

/-- What is read is known, and so is what it leads to. -/
theorem sim_read_bind {β : Type} {f : State κ → β} {f' : State κ' → β} {b : β}
    {J : β → State κ → State κ' → Prop} {g : β → Evaluation κ ε α} {g' : β → Evaluation κ' ε' α}
    (h : ∀ s s', L.states i s s' → f s = b ∧ f' s' = b)
    (hg : ∀ b, Simulates (L.states i) (J b) (L.errors i) (fun s => L.lost s.control) (g b) (g' b)) :
    Simulates (L.states i) (J b) (L.errors i) (fun s => L.lost s.control) (read f >>= g)
      (read f' >>= g') := by
  refine ⟨fun s s' hs => ?_, fun s' hs => (hg (f' s')).lost s' hs⟩
  obtain ⟨hf, hf'⟩ := h s s' hs
  show Matches _ _ _ ((g (f s)).run s) ((g' (f' s')).run s')
  rw [hf, hf']
  exact (hg b).run s s' hs

theorem sim_onHeap {panic : Error → ε} {panic' : Error → ε'} (hL : L.Respects panic panic')
    (op : HeapOp α) : L.Sim i (onHeap panic op) (onHeap panic' op) := by
  refine ⟨fun s s' hs => ?_, fun s' hs => ?_⟩
  · simp only [onHeap, Call.run, (hL.reads i s s' hs).1]
    split
    · exact .value (hL.heap i s s' _ hs)
    · exact .error (hL.panic i _ _ _ (hL.heap i s s' _ hs))
  · simp only [onHeap, Call.run]
    split <;> exact hs

theorem sim_whileRound {cond stmts : Evaluation κ ε Value} {cond' stmts' : Evaluation κ' ε' Value}
    (hcond : L.Sim i cond cond') (hstmts : L.Sim i stmts stmts') :
    L.Sim i (whileRound cond stmts) (whileRound cond' stmts') :=
  .bind hcond fun _ =>
    .ite (.bind hstmts fun _ => .pure _) (.pure _)

section

variable (hc : ctl.Alike L d ctl')

include hc

theorem sim_raise (e : Error) : L.Sim i (raise ctl e : Evaluation κ ε α) (raise ctl' e) :=
  .fail fun s s' hs => hc.respects.panic i s s' e hs

theorem sim_currentScope : L.Sim i (read State.currentScope) (read State.currentScope) :=
  sim_read _ _ fun s s' hs => (hc.respects.reads i s s' hs).2.1

theorem sim_self : L.Sim i (read State.self) (read State.self) :=
  sim_read _ _ fun s s' hs => (hc.respects.reads i s s' hs).2.2.2

theorem sim_setCurrentClass (cls : Option Nat) :
    L.Sim i (setCurrentClass cls) (setCurrentClass cls) :=
  .update (fun s s' hs => hc.respects.currentClass i s s' cls hs) fun _ hs => hs

theorem sim_orRaise (e : Error) {op : Evaluation κ ε (Option α)} {op' : Evaluation κ' ε' (Option α)}
    (h : L.Sim i op op') : L.Sim i (orRaise ctl e op) (orRaise ctl' e op') := by
  refine .bind h fun r => ?_
  cases r with
  | none => exact sim_raise hc e
  | some a => exact .pure a

theorem sim_classOf (self : Value) : L.Sim i (classOf ctl self) (classOf ctl' self) := by
  unfold classOf
  split
  · exact .bind (sim_onHeap hc.respects _) fun i => .pure i.cls
  · exact sim_onHeap hc.respects _
  · exact sim_onHeap hc.respects _
  · exact sim_onHeap hc.respects _
  · exact sim_raise hc _

theorem sim_assignProp (name : String) (obj : Node) (rvalue : Value) :
    L.Sim i (assignProp ctl name obj rvalue) (assignProp ctl' name obj rvalue) := by
  unfold assignProp
  split
  · exact sim_raise hc _
  · refine .ite (sim_raise hc _) ?_
    refine bind (sim_self hc) fun self => ?_
    split
    · exact sim_raise hc _
    · refine .bind (sim_onHeap hc.respects _) fun self => ?_
      exact .bind (sim_onHeap hc.respects _) fun found =>
        .ite (.pure ()) (sim_onHeap hc.respects _)
    · exact sim_raise hc _

theorem sim_evalFunc (name : String) (params : List String) (stmts : Node) :
    L.Sim i (evalFunc ctl name params stmts) (evalFunc ctl' name params stmts) := by
  refine bind (sim_currentScope hc) fun scope => ?_
  refine .bind (sim_onHeap hc.respects _) fun func => ?_
  refine .bind (sim_read _ _ fun s s' hs => (hc.respects.reads i s s' hs).2.2.1) fun cls => ?_
  refine .bind ?_ fun _ => .pure _
  cases cls with
  | none => exact sim_onHeap hc.respects _
  | some cls => exact sim_onHeap hc.respects _

theorem sim_evalId (name : String) : L.Sim i (evalId ctl name) (evalId ctl' name) := by
  refine bind (sim_currentScope hc) fun scope => ?_
  refine .bind (sim_onHeap hc.respects _) fun value => ?_
  split
  · exact .ite (sim_self hc) (sim_raise hc _)
  · exact .pure _

variable (heval : ∀ i node, L.Sim i (eval node) (eval' node))

include heval

/-! ## Calls -/

omit hc in
/-- An optional part, with a value for its absence. -/
theorem sim_elim (node : Option Node) (v : Value) :
    L.Sim i (node.elim (pure v) eval) (node.elim (pure v) eval') := by
  cases node with
  | none => exact .pure v
  | some node => exact heval i node

theorem sim_runFunc (self : Value) (func : Func) (args : List Value) (i : L.Situation) (scope : Nat) :
    L.BodySim i scope (runFunc natives ctl eval self func args scope)
      (runFunc natives ctl' eval' self func args scope) := by
  have hweak : ∀ {m : Evaluation κ ε Value} {m' : Evaluation κ' ε' Value}, L.Sim i m m' →
      L.BodySim i scope m m' := fun h =>
    .weaken h (fun _ _ h => h) (fun _ _ h => .inl h) fun _ _ _ _ h => .inl h
  unfold runFunc
  split
  · exact hweak (sim_onHeap hc.respects _)
  · exact hweak (sim_onHeap hc.respects _)
  · split
    · exact hweak (sim_raise hc _)
    · -- the statements run in the situation the new scope has made
      have hargs := (forEach (fun arg : String × Value =>
        sim_onHeap (i := i) hc.respects (Heap.defineVar (some scope) arg.1 arg.2))
          (‹List String›.zip args))
      refine (hargs.weaken (fun _ _ h => h) (fun _ _ h => h) fun _ _ _ _ h => .inl h).bind fun _ => ?_
      refine (update (fun s s' hs => hc.respects.currentScope i s s' scope hs)
        fun _ hs => hs).bind fun _ => ?_
      refine (update (fun s s' hs => hc.respects.self _ s s' self hs) fun _ hs => hs).bind fun _ => ?_
      refine weaken (bind (heval (L.enter i scope) _) fun _ =>
        pure Value.undefined) (fun _ _ h => h) (fun _ _ h => .inr h) fun _ _ _ _ h => .inr h

theorem sim_callFunc (self : Value) (func : Func) (args : List Value) :
    L.Sim i (callFunc natives ctl eval self func args)
      (callFunc natives ctl' eval' self func args) :=
  hc.callFunc i func _ _ fun i scope => sim_runFunc hc heval self func args i scope

theorem sim_invokeMethod (name : String) (self : Value) (args : List Value) :
    L.Sim i (invokeMethod natives ctl eval name self args)
      (invokeMethod natives ctl' eval' name self args) :=
  .bind (sim_classOf hc self) fun _ =>
    .bind (sim_orRaise hc _ (sim_onHeap hc.respects _)) fun method =>
      sim_callFunc hc heval self method args

theorem sim_instantiate (args : List Node) (cls : Nat) :
    L.Sim i (instantiate natives ctl eval args cls) (instantiate natives ctl' eval' args cls) := by
  refine .bind (sim_onHeap hc.respects _) fun scope => ?_
  refine .bind (sim_onHeap hc.respects _) fun inst => ?_
  refine .bind (sim_onHeap hc.respects _) fun method => ?_
  cases method with
  | none => exact .pure _
  | some newMethod =>
    exact .bind (.mapEach (heval i) args) fun args =>
      .bind (sim_callFunc hc heval _ newMethod args) fun _ => .pure _

theorem sim_evalCall (callee : Node) (args : List Node) :
    L.Sim i (evalCall natives ctl eval callee args) (evalCall natives ctl' eval' callee args) := by
  unfold evalCall
  split
  · refine bind (sim_currentScope hc) fun scope => ?_
    refine .bind (sim_onHeap hc.respects _) fun value => ?_
    split
    · exact .bind (sim_onHeap hc.respects _) fun func =>
        .bind (.mapEach (heval i) args) fun args =>
          sim_callFunc hc heval _ func args
    · exact sim_instantiate hc heval args _
    · exact sim_raise hc _
  · exact .bind (heval i _) fun self =>
      .bind (.mapEach (heval i) args) fun args =>
        sim_invokeMethod hc heval _ self args
  · exact sim_raise hc _

theorem sim_evalBinOp (op : BinOp) (lhs rhs : Node) :
    L.Sim i (evalBinOp natives ctl eval op lhs rhs) (evalBinOp natives ctl' eval' op lhs rhs) := by
  refine .bind (heval i lhs) fun lhs => ?_
  refine .bind (heval i rhs) fun rhs => ?_
  refine .ite (sim_raise hc _) ?_
  exact .bind (sim_onHeap hc.respects _) fun _ =>
    .bind (sim_orRaise hc _ (sim_onHeap hc.respects _)) fun method =>
      sim_callFunc hc heval lhs method [rhs]

/-! ## The other nodes -/

theorem sim_assignTo (lvalue : Node) (rvalue : Value) :
    L.Sim i (assignTo natives ctl eval lvalue rvalue)
      (assignTo natives ctl' eval' lvalue rvalue) := by
  unfold assignTo
  split
  · exact sim_assignProp hc _ _ _
  · exact .bind (heval i _) fun self => .bind (heval i _) fun index =>
      .bind (sim_invokeMethod hc heval _ self _) fun _ => .pure ()
  · exact bind (sim_currentScope hc) fun scope =>
      .bind (sim_onHeap hc.respects _) fun found => .ite (.pure ()) (sim_raise hc _)
  · exact sim_raise hc _

theorem sim_evalReturn (value : Option Node) :
    L.Sim i (evalReturn ctl eval value) (evalReturn ctl' eval' value) := by
  refine .bind (sim_elim heval value .null) fun retValue => ?_
  refine bind (sim_currentScope hc) fun scope => ?_
  cases scope with
  | none => exact sim_raise hc _
  | some scope => exact hc.unwindReturn i retValue

theorem sim_evalClass (name : String) (stmts : Node) :
    L.Sim i (evalClass ctl eval name stmts) (evalClass ctl' eval' name stmts) := by
  refine .bind (sim_onHeap hc.respects _) fun cls => ?_
  refine .bind (sim_setCurrentClass hc _) fun _ => ?_
  refine .bind (heval i stmts) fun _ => ?_
  refine .bind (sim_setCurrentClass hc _) fun _ => ?_
  refine bind (sim_currentScope hc) fun scope => ?_
  exact .bind (sim_onHeap hc.respects _) fun _ => .pure _

theorem sim_evalProp (name : String) (obj : Node) :
    L.Sim i (evalProp ctl eval name obj) (evalProp ctl' eval' name obj) := by
  refine .bind (heval i obj) fun self => ?_
  split
  · refine .bind (sim_onHeap hc.respects _) fun self => ?_
    refine .bind (sim_onHeap hc.respects _) fun value => ?_
    split
    · exact sim_raise hc _
    · exact .pure _
  · exact sim_raise hc _

theorem sim_evalListLit (elems : List Node) :
    L.Sim i (evalListLit ctl eval elems) (evalListLit ctl' eval' elems) :=
  .bind (sim_onHeap hc.respects _) fun _ =>
    .bind (.forEach (fun elem => .bind (heval i elem) fun _ =>
      sim_onHeap hc.respects _) elems) fun _ => .pure _

theorem sim_evalMapLit (entries : List (Node × Node)) :
    L.Sim i (evalMapLit ctl eval entries) (evalMapLit ctl' eval' entries) :=
  .bind (sim_onHeap hc.respects _) fun _ =>
    .bind (.forEach (fun entry : Node × Node => .bind (heval i entry.1) fun _ =>
      .bind (heval i entry.2) fun _ => sim_onHeap hc.respects _) entries) fun _ => .pure _

theorem sim_evalVar (name : String) (initializer : Option Node) :
    L.Sim i (evalVar ctl eval name initializer) (evalVar ctl' eval' name initializer) :=
  .bind (sim_elim heval initializer .undefined) fun _ =>
    bind (sim_currentScope hc) fun _ =>
      .bind (sim_onHeap hc.respects _) fun _ => .pure _

omit hc in
theorem sim_evalIf (condition thenPart : Node) (elsePart : Option Node) :
    L.Sim i (evalIf eval condition thenPart elsePart) (evalIf eval' condition thenPart elsePart) :=
  .bind (heval i condition) fun _ =>
    .ite (.bind (heval i thenPart) fun _ => .pure _)
      (.bind (sim_elim heval elsePart .undefined) fun _ => .pure _)

omit hc in
theorem sim_evalBoth (op : Bool → Bool → Bool) (lhs rhs : Node) :
    L.Sim i (evalBoth eval op lhs rhs) (evalBoth eval' op lhs rhs) :=
  .bind (heval i lhs) fun _ => .bind (heval i rhs) fun _ => .pure _

end

/-- **The evaluator over two controls that are alike.** Without fuel the
first does not come back; what the second may do then is up to the link. -/
theorem simulates_evalNode (natives : Natives) (hc : ctl.Alike L d ctl')
    (hfuel : ∀ i node, L.Sim i (.stop .outOfFuel) (evalNode natives ctl' d node)) (k : Nat) :
    ∀ i node, L.Sim i (evalNode natives ctl k node) (evalNode natives ctl' (k + d) node) := by
  induction k with
  | zero =>
    intro i node
    rw [Nat.zero_add]
    exact hfuel i node
  | succ k ih =>
    intro i node
    rw [Nat.succ_add]
    cases node with
    | program body => exact ih i body
    | stmts childs => exact .bind (.forEach (ih i) childs) fun _ => .pure _
    | binOp op lhs rhs => exact sim_evalBinOp hc ih op lhs rhs
    | assign lvalue rvalue =>
      exact .bind (ih i rvalue) fun v =>
        .bind (sim_assignTo hc ih lvalue v) fun _ => .pure v
    | varStmt name initializer => exact sim_evalVar hc ih name initializer
    | funcStmt name params stmts => exact sim_evalFunc hc name params stmts
    | nullLit => exact .pure _
    | intLit literal => exact .pure _
    | stringLit str => exact .pure _
    | listLit elems => exact sim_evalListLit hc ih elems
    | mapLit entries => exact sim_evalMapLit hc ih entries
    | trueLit => exact .pure _
    | falseLit => exact .pure _
    | call callee args => exact sim_evalCall hc ih callee args
    | ifStmt condition thenPart elsePart => exact sim_evalIf ih condition thenPart elsePart
    | returnStmt value => exact sim_evalReturn hc ih value
    | id name => exact sim_evalId hc name
    | prop name obj => exact sim_evalProp hc ih name obj
    | classStmt name stmts => exact sim_evalClass hc ih name stmts
    | whileStmt condition stmts =>
      exact hc.evalWhile i k _ _ _ _ (fun i => ih i condition) fun i => ih i stmts
    | continueStmt => exact hc.unwindContinue i
    | breakStmt => exact hc.unwindBreak i
    | not operand => exact .bind (ih i operand) fun _ => .pure _
    | or lhs rhs => exact sim_evalBoth ih _ lhs rhs
    | and lhs rhs => exact sim_evalBoth ih _ lhs rhs
    | index obj index =>
      exact .bind (ih i obj) fun self => .bind (ih i index) fun index =>
        sim_invokeMethod hc ih _ self [index]

end Congruence

/-! ## Fuel -/

/-- A control with itself: the states are the same, and whatever the second
does will do where the first has run out of fuel. -/
def fuelLink (κ ε : Type) : Link κ κ ε ε where
  Situation := Unit
  enter := fun _ _ => ()
  states := fun _ s s' => s = s'
  errors := fun _ e s e' s' => e = e' ∧ s = s'
  lost := fun _ => True

section MoreFuel

variable {i : (fuelLink κ ε).Situation}

theorem sim_refl (m : Evaluation κ ε α) : (fuelLink κ ε).Sim i m m :=
  .refl (fun _ => trivial) m

theorem sim_stop (m : Evaluation κ ε α) : (fuelLink κ ε).Sim i (.stop .outOfFuel) m :=
  .stop_left (fun _ => trivial) _ m

/-- Handlers that match, after calls that do. -/
theorem sim_handle {m m' : Evaluation κ ε α} {h h' : ε → Evaluation κ ε α}
    (hm : (fuelLink κ ε).Sim i m m') (hh : ∀ e, (fuelLink κ ε).Sim i (h e) (h' e)) :
    (fuelLink κ ε).Sim i (m.handle h) (m'.handle h') := by
  refine .handle hm ?_ fun e s hs => (hh e).lost s hs
  rintro e s _ _ ⟨rfl, rfl⟩
  exact (hh e).run s s rfl

/-- The body of a call has nothing but its result to differ in. -/
theorem sim_of_bodySim {scope : Nat} {m m' : Evaluation κ ε α}
    (h : (fuelLink κ ε).BodySim i scope m m') : (fuelLink κ ε).Sim i m m' :=
  h.weaken (fun _ _ h => h) (fun _ _ h => h.elim id id) fun _ _ _ _ h => h.elim id id

theorem respects_fuelLink (panic : Error → ε) : (fuelLink κ ε).Respects panic panic where
  reads := by rintro i s _ rfl; exact ⟨rfl, rfl, rfl, rfl⟩
  heap := by rintro i s _ heap rfl; rfl
  currentScope := by rintro i s _ scope rfl; rfl
  currentClass := by rintro i s _ cls rfl; rfl
  self := by rintro i s _ v rfl; rfl
  panic := by rintro i s _ e rfl; exact ⟨rfl, rfl⟩

/-- **More fuel does not change the result of the evaluator**, if the
control is like itself with more. -/
theorem stable_evalNode (natives : Natives) {ctl : Control κ ε} (hc : ctl.Alike (fuelLink κ ε) 1 ctl)
    (node : Node) (s : State κ) : Fuel.Stable fun k => (evalNode natives ctl k node).run s := by
  intro k res h
  have hsim := (simulates_evalNode natives hc (fun _ _ => sim_stop _) k () node).run s s rfl
  simp only at h ⊢
  rw [h] at hsim
  exact hsim.eq_of_ok

end MoreFuel

end Archives.Ena.Eval
