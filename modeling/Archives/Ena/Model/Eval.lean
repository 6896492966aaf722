import Archives.Common.Simulation
/-!
# ena — the evaluator

`eval.c`, with the scopes of `internal.c` and the macros of `eval.h`. The
evaluator walks the syntax tree. It is written here once, over the
control it needs: how a function is called, how a loop runs, and how
`return`, `break` and `continue` leave what they are in. `Control` is
that interface. `machine` implements it as the source does, with a stack
of unwind points, `setjmp` and `longjmp`.

The evaluator need not come back, so `evalNode` takes fuel for the depth
of its calls and the rounds of its loops. Objects live in one table for
each kind and are never collected; an integer or a string is the value it
holds.
-/

namespace Archives.Ena.Eval

open Call

/-! ## Values and the heap -/

/-- The operators that are calls of a method of the left operand. -/
inductive BinOp
  | add | sub | mul | div | mod | eq | neq | lt | lte | gt | gte
  deriving DecidableEq

/-- The method names the `EVAL_BINOP_NODE` lines give. -/
def BinOp.methodName : BinOp → String
  | .add => "+"
  | .sub => "-"
  | .mul => "*"
  | .div => "/"
  | .mod => "%"
  | .eq => "=="
  | .neq => "!="
  | .lt => "<"
  | .lte => "<="
  | .gt => ">"
  | .gte => ">="

/-- `struct ena_node`, one constructor for each type of node the evaluator
has a case for. The statements have the names of the rules that parse
them. -/
inductive Node
  | program (body : Node)
  | stmts (childs : List Node)
  | binOp (op : BinOp) (lhs rhs : Node)
  | assign (lvalue rvalue : Node)
  | varStmt (name : String) (initializer : Option Node)
  | funcStmt (name : String) (params : List String) (stmts : Node)
  | nullLit
  | intLit (literal : Int)
  | stringLit (str : String)
  | listLit (elems : List Node)
  | mapLit (entries : List (Node × Node))
  | trueLit
  | falseLit
  | call (callee : Node) (args : List Node)
  | ifStmt (condition thenPart : Node) (elsePart : Option Node)
  | returnStmt (value : Option Node)
  | id (name : String)
  | prop (name : String) (obj : Node)
  | classStmt (name : String) (stmts : Node)
  | whileStmt (condition stmts : Node)
  | continueStmt
  | breakStmt
  | not (operand : Node)
  | or (lhs rhs : Node)
  | and (lhs rhs : Node)
  | index (obj index : Node)

/-- `node->token->str`, for the nodes that have a token. -/
def Node.token : Node → Option String
  | .varStmt name _ => some name
  | .funcStmt name _ _ => some name
  | .stringLit str => some ("\"" ++ str ++ "\"")
  | .id name => some name
  | .prop name _ => some name
  | .classStmt name _ => some name
  | _ => none

inductive Value
  | undefined
  | null
  | bool (value : Bool)
  | int (value : Int)
  | string (value : String)
  | func (address : Nat)
  | cls (address : Nat)
  | inst (address : Nat)
  | list (address : Nat)
  | map (address : Nat)
  deriving DecidableEq

inductive ValueType
  | undefined | null | bool | int | string | func | cls | inst | list | map
  deriving DecidableEq

/-- `ena_get_type`. -/
def Value.type : Value → ValueType
  | .undefined => .undefined
  | .null => .null
  | .bool _ => .bool
  | .int _ => .int
  | .string _ => .string
  | .func _ => .func
  | .cls _ => .cls
  | .inst _ => .inst
  | .list _ => .list
  | .map _ => .map

def Value.test (v : Value) : Bool := v = .bool true

structure Scope where
  vars : List (String × Value)
  parent : Option Nat

/-- What a function runs: a native method, which is given the receiver, a
native function, or statements. -/
inductive Code
  | nativeMethod (id : Nat)
  | nativeFunc (id : Nat)
  | script (params : List String) (stmts : Node)

structure Func where
  name : String
  scope : Option Nat
  code : Code

structure Instance where
  cls : Nat
  props : Nat

/-- The objects, a table for each kind; an address is a place in its
table. -/
structure Heap where
  scopes : List Scope
  funcs : List Func
  classes : List (List (String × Nat))
  instances : List Instance
  lists : List (List Value)
  maps : List (List (Value × Value))
  intClass : Nat
  stringClass : Nat
  listClass : Nat
  mapClass : Nat

/-- `ena_error_type_t`, as far as the evaluator raises it; `crash` is a
pointer that leads nowhere. -/
inductive ErrorType
  | bug | type | runtime | notYetImplemented | crash
  deriving DecidableEq

structure Error where
  type : ErrorType
  str : String
  deriving DecidableEq

def runtimeError (str : String) : Error := ⟨.runtime, "Runtime Error: " ++ str⟩

def typeError (str : String) : Error := ⟨.type, "Type Error: " ++ str⟩

def bug (str : String) : Error := ⟨.bug, "BUG: " ++ str⟩

/-- `NOT_YET_IMPLEMENTED`, without the place. -/
def notYetImplemented : Error := ⟨.notYetImplemented, "not yet implemented"⟩

/-- Following a null pointer. -/
def crash : Error := ⟨.crash, ""⟩

/-- What an operation on the heap does: an error or a value, and the heap
it leaves. -/
abbrev HeapOp (α : Type) := Heap → Except Error α × Heap

namespace Heap

/-- `ena_hash_search` in the variables of a scope or the methods of a
class. -/
def search {α : Type} (table : List (String × α)) (name : String) : Option α :=
  (table.find? fun entry => entry.1 == name).map Prod.snd

def createScope (parent : Option Nat) : HeapOp Nat := fun heap =>
  (.ok heap.scopes.length, { heap with scopes := heap.scopes ++ [⟨[], parent⟩] })

def parentOf (heap : Heap) (scope : Nat) : Option Nat := (heap.scopes[scope]?).bind Scope.parent

/-- The scope in which `lookup_var` finds the name. A parent is older than
its scope, so there are at most as many steps as scopes. -/
def lookupVar (heap : Heap) (name : String) : Nat → Option Nat → Option (Nat × Scope)
  | 0, _ => none
  | _, none => none
  | k + 1, some a =>
    match heap.scopes[a]? with
    | none => none
    | some scope =>
      if (search scope.vars name).isSome then some (a, scope) else heap.lookupVar name k scope.parent

def defineVar (scope : Option Nat) (name : String) (value : Value) : HeapOp Unit := fun heap =>
  match scope.bind fun a => (heap.scopes[a]?).map fun s => (a, s) with
  | none => (.error crash, heap)
  | some (a, s) =>
    if (search s.vars name).isSome then (.error (runtimeError (name ++ " is already defined")), heap)
    else (.ok (), { heap with scopes := heap.scopes.set a { s with vars := s.vars ++ [(name, value)] } })

def getVarValue (scope : Option Nat) (name : String) : HeapOp Value := fun heap =>
  match heap.lookupVar name heap.scopes.length scope with
  | none => (.ok .undefined, heap)
  | some (_, s) => (.ok ((search s.vars name).getD .undefined), heap)

/-- The entry of the name with another value. -/
def replace (name : String) (value : Value) : List (String × Value) → List (String × Value)
  | [] => []
  | entry :: table =>
    if entry.1 == name then (entry.1, value) :: table else entry :: replace name value table

def setVarValue (scope : Option Nat) (name : String) (value : Value) : HeapOp Bool := fun heap =>
  match heap.lookupVar name heap.scopes.length scope with
  | none => (.ok false, heap)
  | some (a, s) =>
    (.ok true, { heap with scopes := heap.scopes.set a { s with vars := replace name value s.vars } })

variable (address : Nat)

def func : HeapOp Func := fun heap =>
  match heap.funcs[address]? with
  | none => (.error crash, heap)
  | some f => (.ok f, heap)

def inst : HeapOp Instance := fun heap =>
  match heap.instances[address]? with
  | none => (.error crash, heap)
  | some i => (.ok i, heap)

/-- `ena_alloc_object` for a function, as `eval_FUNC` fills it. -/
def createFunc (f : Func) : HeapOp Nat := fun heap =>
  (.ok heap.funcs.length, { heap with funcs := heap.funcs ++ [f] })

def createClass : HeapOp Nat := fun heap =>
  (.ok heap.classes.length, { heap with classes := heap.classes ++ [[]] })

/-- `ena_alloc_object` for an instance. -/
def createInstance (i : Instance) : HeapOp Nat := fun heap =>
  (.ok heap.instances.length, { heap with instances := heap.instances ++ [i] })

/-- `ena_alloc_object` for a list. -/
def createList : HeapOp Nat := fun heap =>
  (.ok heap.lists.length, { heap with lists := heap.lists ++ [[]] })

/-- Fill in the next element of a list literal. -/
def addElem (elem : Value) : HeapOp Unit := fun heap =>
  (.ok (), { heap with lists := heap.lists.modify address (· ++ [elem]) })

/-- `ena_alloc_object` for a map. -/
def createMap : HeapOp Nat := fun heap =>
  (.ok heap.maps.length, { heap with maps := heap.maps ++ [[]] })

/-- `ena_hash_insert` into a map. -/
def addEntry (key value : Value) : HeapOp Unit := fun heap =>
  (.ok (), { heap with maps := heap.maps.modify address (· ++ [(key, value)]) })

/-- `ena_hash_search_or_insert` into the methods of a class. -/
def defineMethod (cls : Nat) (name : String) (f : Nat) : HeapOp Unit := fun heap =>
  match heap.classes[cls]? with
  | none => (.error crash, heap)
  | some methods =>
    if (search methods name).isSome then (.error (runtimeError (name ++ " is already defined")), heap)
    else (.ok (), { heap with classes := heap.classes.set cls (methods ++ [(name, f)]) })

def builtinClass (type : ValueType) : HeapOp Nat := fun heap =>
  match type with
  | .int => (.ok heap.intClass, heap)
  | .string => (.ok heap.stringClass, heap)
  | .list => (.ok heap.listClass, heap)
  | .map => (.ok heap.mapClass, heap)
  | _ => (.error notYetImplemented, heap)

def lookupMethod (cls : Nat) (name : String) : HeapOp (Option Func) := fun heap =>
  match heap.classes[cls]? with
  | none => (.error crash, heap)
  | some methods =>
    match search methods name with
    | none => (.ok none, heap)
    | some a =>
      match heap.funcs[a]? with
      | none => (.error crash, heap)
      | some f => (.ok (some f), heap)

end Heap

/-- The native code: what the methods of the builtin classes and the
functions of the embedding program do. -/
structure Natives where
  method : Nat → Value → List Value → HeapOp Value
  func : Nat → List Value → HeapOp Value

/-! ## The evaluator -/

/-- The part of `struct ena_vm` the evaluator works on, with the state `κ`
of the control. -/
structure State (κ : Type) where
  heap : Heap
  currentScope : Option Nat
  currentClass : Option Nat
  self : Value
  control : κ

/-- The evaluation does not come back with the fuel it was given. -/
inductive OutOfFuel
  | outOfFuel
  deriving DecidableEq

/-- A part of the evaluation: it ends with a value, or leaves what it is
in by an `ε`. -/
abbrev Evaluation (κ ε α : Type) := Call OutOfFuel (State κ) ε α

/-- **The control of the evaluator.** `callFunc` is given the function and
what runs in its new scope; `evalWhile` the fuel, the condition and the
statements. `panic` is how an error leaves everything. -/
structure Control (κ ε : Type) where
  panic : Error → ε
  callFunc : Func → (Nat → Evaluation κ ε Value) → Evaluation κ ε Value
  evalWhile : Nat → Evaluation κ ε Value → Evaluation κ ε Value → Evaluation κ ε Value
  unwindReturn : Value → Evaluation κ ε Value
  unwindBreak : Evaluation κ ε Value
  unwindContinue : Evaluation κ ε Value

section Evaluator

variable {κ ε α : Type}

/-- An operation on the heap; its error is a panic. -/
def onHeap (panic : Error → ε) (op : HeapOp α) : Evaluation κ ε α := fun s =>
  match op s.heap with
  | (.ok a, heap) => .ok (.ok a, { s with heap := heap })
  | (.error e, heap) => .ok (.error (panic e), { s with heap := heap })

/-- Read a part of the state. -/
def read (f : State κ → α) : Evaluation κ ε α := fun s => .ok (.ok (f s), s)

def setCurrentScope (scope : Option Nat) : Evaluation κ ε Unit :=
  update fun s => { s with currentScope := scope }

def setCurrentClass (cls : Option Nat) : Evaluation κ ε Unit :=
  update fun s => { s with currentClass := cls }

def setSelf (self : Value) : Evaluation κ ε Unit := update fun s => { s with self := self }

variable (natives : Natives) (ctl : Control κ ε)

/-- `ENA_PANIC`. -/
def raise (e : Error) : Evaluation κ ε α := fail (ctl.panic e)

/-- `op`, or the error if it gives nothing. -/
def orRaise (e : Error) (op : Evaluation κ ε (Option α)) : Evaluation κ ε α := do
  match ← op with
  | some a => pure a
  | none => raise ctl e

variable (eval : Node → Evaluation κ ε Value)

/-- What `call_func` does in the scope it has created: it runs native code
or binds the arguments and runs the statements. -/
def runFunc (self : Value) (func : Func) (args : List Value)
    (newScope : Nat) : Evaluation κ ε Value :=
  match func.code with
  | .nativeMethod id => onHeap ctl.panic (natives.method id self args)
  | .nativeFunc id => onHeap ctl.panic (natives.func id args)
  | .script params stmts =>
    if args.length ≠ params.length then raise ctl (runtimeError "incorrect # of arguments")
    else do
      forEach (fun (name, arg) => onHeap ctl.panic (Heap.defineVar (some newScope) name arg))
        (params.zip args)
      setCurrentScope (some newScope)
      setSelf self
      let _ ← eval stmts
      return .undefined

def callFunc (self : Value) (func : Func) (args : List Value) : Evaluation κ ε Value :=
  ctl.callFunc func (runFunc natives ctl eval self func args)

/-- The class `invoke_method` looks a method up in. -/
def classOf (self : Value) : Evaluation κ ε Nat :=
  match self with
  | .inst a => do
    let i ← onHeap ctl.panic (Heap.inst a)
    return i.cls
  | .string _ => onHeap ctl.panic (Heap.builtinClass .string)
  | .list _ => onHeap ctl.panic (Heap.builtinClass .list)
  | .map _ => onHeap ctl.panic (Heap.builtinClass .map)
  | _ => raise ctl (runtimeError "lhs is not class")

def invokeMethod (methodName : String) (self : Value)
    (args : List Value) : Evaluation κ ε Value := do
  let cls ← classOf ctl self
  let method ← orRaise ctl (runtimeError ("method " ++ methodName ++ " is not defined"))
    (onHeap ctl.panic (Heap.lookupMethod cls methodName))
  callFunc natives ctl eval self method args

/-- `instantiate`. The arguments are evaluated only if there is a
constructor. -/
def instantiate (args : List Node) (cls : Nat) : Evaluation κ ε Value := do
  let scope ← onHeap ctl.panic (Heap.createScope none)
  let inst ← onHeap ctl.panic (Heap.createInstance ⟨cls, scope⟩)
  match ← onHeap ctl.panic (Heap.lookupMethod cls "new") with
  | none => return .inst inst
  | some newMethod => do
    let args ← mapEach eval args
    let _ ← callFunc natives ctl eval (.inst inst) newMethod args
    return .inst inst

def evalBinOp (op : BinOp) (lhs rhs : Node) : Evaluation κ ε Value := do
  let lhs ← eval lhs
  let rhs ← eval rhs
  if lhs.type ≠ rhs.type then raise ctl (typeError (op.methodName ++ ": type mismatch"))
  else do
    let cls ← onHeap ctl.panic (Heap.builtinClass lhs.type)
    let method ← orRaise ctl (runtimeError ("method `" ++ op.methodName ++ "' is not defined"))
      (onHeap ctl.panic (Heap.lookupMethod cls op.methodName))
    callFunc natives ctl eval lhs method [rhs]

variable (name : String)

/-- The case `ENA_NODE_PROP` of `eval_OP_ASSIGN`: only properties of
`self` can be assigned, whatever stands before the dot is compared by its
token. -/
def assignProp (obj : Node) (rvalue : Value) : Evaluation κ ε Unit :=
  match obj.token with
  | none => raise ctl crash
  | some token =>
    if token ≠ "self" then raise ctl notYetImplemented
    else do
      match ← read State.self with
      | .undefined => raise ctl (runtimeError "self is not available")
      | .inst a => do
        let self ← onHeap ctl.panic (Heap.inst a)
        if ← onHeap ctl.panic (Heap.setVarValue (some self.props) name rvalue) then pure ()
        else onHeap ctl.panic (Heap.defineVar (some self.props) name rvalue)
      | _ => raise ctl (runtimeError "self is not an instance")

/-- The switch of `eval_OP_ASSIGN` over the left side. -/
def assignTo (lvalue : Node) (rvalue : Value) : Evaluation κ ε Unit :=
  match lvalue with
  | .prop name obj => assignProp ctl name obj rvalue
  | .index obj index => do
    let self ← eval obj
    let index ← eval index
    let _ ← invokeMethod natives ctl eval "[]=" self [index, rvalue]
    return ()
  | .id name => do
    let scope ← read State.currentScope
    if ← onHeap ctl.panic (Heap.setVarValue scope name rvalue) then pure ()
    else raise ctl (runtimeError (name ++ " is not defined"))
  | _ => raise ctl (runtimeError "Invalid lvalue.")

/-- `eval_OP_ASSIGN`: the right side is evaluated first. -/
def evalAssign (lvalue rvalue : Node) : Evaluation κ ε Value := do
  let rvalue ← eval rvalue
  assignTo natives ctl eval lvalue rvalue
  return rvalue

/-- The table `eval_FUNC` puts a function into: in a class it is a method,
elsewhere a variable. -/
def defineFunc (scope cls : Option Nat) (name : String) (func : Nat) : Evaluation κ ε Unit :=
  match cls with
  | some cls => onHeap ctl.panic (Heap.defineMethod cls name func)
  | none => onHeap ctl.panic (Heap.defineVar scope name (.func func))

def evalFunc (params : List String) (stmts : Node) : Evaluation κ ε Value := do
  let scope ← read State.currentScope
  let func ← onHeap ctl.panic (Heap.createFunc ⟨name, scope, .script params stmts⟩)
  let cls ← read State.currentClass
  defineFunc ctl scope cls name func
  return .undefined

/-- `eval_CALL`. A call of anything but a name is taken for a method call;
a callee without a token is a null pointer. -/
def evalCall (callee : Node) (args : List Node) : Evaluation κ ε Value :=
  match callee with
  | .id name => do
    let scope ← read State.currentScope
    match ← onHeap ctl.panic (Heap.getVarValue scope name) with
    | .func a => do
      let func ← onHeap ctl.panic (Heap.func a)
      let args ← mapEach eval args
      callFunc natives ctl eval .undefined func args
    | .cls a => instantiate natives ctl eval args a
    | _ => raise ctl (runtimeError (name ++ " is not a functon or class."))
  | .prop methodName obj => do
    let self ← eval obj
    let args ← mapEach eval args
    invokeMethod natives ctl eval methodName self args
  | _ => raise ctl crash

/-- `eval_RETURN`, up to the unwinding. -/
def evalReturn (value : Option Node) : Evaluation κ ε Value := do
  let retValue ← value.elim (pure .null) eval
  match ← read State.currentScope with
  | none => raise ctl (runtimeError "return from the top level")
  | some _ => ctl.unwindReturn retValue

def evalClass (stmts : Node) : Evaluation κ ε Value := do
  let cls ← onHeap ctl.panic Heap.createClass
  setCurrentClass (some cls)
  let _ ← eval stmts
  setCurrentClass none
  let scope ← read State.currentScope
  onHeap ctl.panic (Heap.defineVar scope name (.cls cls))
  return .undefined

def evalId : Evaluation κ ε Value := do
  let scope ← read State.currentScope
  match ← onHeap ctl.panic (Heap.getVarValue scope name) with
  | .undefined =>
    if name = "self" then read State.self else raise ctl (runtimeError (name ++ " is not defined"))
  | value => pure value

def evalProp (obj : Node) : Evaluation κ ε Value := do
  match ← eval obj with
  | .inst a => do
    let self ← onHeap ctl.panic (Heap.inst a)
    match ← onHeap ctl.panic (Heap.getVarValue (some self.props) name) with
    | .undefined => raise ctl (runtimeError (name ++ " is not defined"))
    | value => pure value
  | _ => raise ctl (runtimeError "self is not instance")

def evalListLit (elems : List Node) : Evaluation κ ε Value := do
  let list ← onHeap ctl.panic Heap.createList
  forEach (fun elem => eval elem >>= fun v => onHeap ctl.panic (Heap.addElem list v)) elems
  return .list list

def evalMapLit (entries : List (Node × Node)) : Evaluation κ ε Value := do
  let map ← onHeap ctl.panic Heap.createMap
  forEach (fun entry => do
    let key ← eval entry.1
    let value ← eval entry.2
    onHeap ctl.panic (Heap.addEntry map key value)) entries
  return .map map

def evalVar (initializer : Option Node) : Evaluation κ ε Value := do
  let initial ← initializer.elim (pure .undefined) eval
  let scope ← read State.currentScope
  onHeap ctl.panic (Heap.defineVar scope name initial)
  return .undefined

def evalIf (condition thenPart : Node) (elsePart : Option Node) : Evaluation κ ε Value := do
  let condition ← eval condition
  if condition.test then do
    let _ ← eval thenPart
    return .undefined
  else do
    let _ ← elsePart.elim (pure .undefined) eval
    return .undefined

/-- `eval_OP_AND` and `eval_OP_OR`: both operands are evaluated. -/
def evalBoth (op : Bool → Bool → Bool) (lhs rhs : Node) : Evaluation κ ε Value := do
  let lhs ← eval lhs
  let rhs ← eval rhs
  return .bool (op lhs.test rhs.test)

/-- The condition of a loop and, if it holds, the statements: whether
they were run. -/
def whileRound (condition stmts : Evaluation κ ε Value) : Evaluation κ ε Bool := do
  let value ← condition
  if value.test then do
    let _ ← stmts
    return true
  else return false

def evalNode : Nat → Node → Evaluation κ ε Value
  | 0, _ => stop .outOfFuel
  | k + 1, .program body => evalNode k body
  | k + 1, .stmts childs => do
    forEach (evalNode k) childs
    return .undefined
  | k + 1, .binOp op lhs rhs => evalBinOp natives ctl (evalNode k) op lhs rhs
  | k + 1, .assign lvalue rvalue => evalAssign natives ctl (evalNode k) lvalue rvalue
  | k + 1, .varStmt name initializer => evalVar ctl (evalNode k) name initializer
  | _ + 1, .funcStmt name params stmts => evalFunc ctl name params stmts
  | _ + 1, .nullLit => pure .null
  | _ + 1, .intLit literal => pure (.int literal)
  | _ + 1, .stringLit str => pure (.string str)
  | k + 1, .listLit elems => evalListLit ctl (evalNode k) elems
  | k + 1, .mapLit entries => evalMapLit ctl (evalNode k) entries
  | _ + 1, .trueLit => pure (.bool true)
  | _ + 1, .falseLit => pure (.bool false)
  | k + 1, .call callee args => evalCall natives ctl (evalNode k) callee args
  | k + 1, .ifStmt condition thenPart elsePart => evalIf (evalNode k) condition thenPart elsePart
  | k + 1, .returnStmt value => evalReturn ctl (evalNode k) value
  | _ + 1, .id name => evalId ctl name
  | k + 1, .prop name obj => evalProp ctl (evalNode k) name obj
  | k + 1, .classStmt name stmts => evalClass ctl (evalNode k) name stmts
  | k + 1, .whileStmt condition stmts => ctl.evalWhile k (evalNode k condition) (evalNode k stmts)
  | _ + 1, .continueStmt => ctl.unwindContinue
  | _ + 1, .breakStmt => ctl.unwindBreak
  | k + 1, .not operand => do
    let value ← evalNode k operand
    return .bool (!value.test)
  | k + 1, .or lhs rhs => evalBoth (evalNode k) Bool.or lhs rhs
  | k + 1, .and lhs rhs => evalBoth (evalNode k) Bool.and lhs rhs
  | k + 1, .index obj index => do
    let self ← evalNode k obj
    let index ← evalNode k index
    invokeMethod natives ctl (evalNode k) "[]" self [index]

end Evaluator

/-! ## Unwind points -/

inductive UnwindType
  | ret
  | brk
  | cont
  deriving DecidableEq

/-- `struct ena_unwind_point`: the jump buffer of the function that pushed
it is known by the address of the point. -/
structure UnwindPoint where
  address : Nat
  retValue : Value
  deriving DecidableEq

/-- `current_unwind_point` and `current_frame`, each with what `prev`
leads to. The frame of the top level has no function. -/
structure Unwind where
  points : List UnwindPoint
  frames : List (Option Func)

/-- A `longjmp`: to an unwind point, or to `panic_jmpbuf`. -/
inductive Jump
  | unwind (point : Nat) (type : UnwindType)
  | panic (error : Error)

namespace Machine

/-- A part of the evaluation on the machine: what it leaves it by is a
jump. -/
abbrev Run (α : Type) := Evaluation Unwind Jump α

/-- `PUSH_UNWIND_POINT`. The new point has an address no other has. -/
def pushUnwindPoint : Run Unit :=
  update fun s =>
    { s with control :=
      { s.control with points := ⟨s.control.points.length, .undefined⟩ :: s.control.points } }

/-- `vm->current_unwind_point`, about to be followed. -/
def currentUnwindPoint : Run UnwindPoint := do
  match ← read fun s => s.control.points with
  | [] => fail (.panic crash)
  | point :: _ => pure point

def popUnwindPoint : Run Unit := do
  match ← read fun s => s.control.points with
  | [] => fail (.panic (bug "pop unwind_point in the top level"))
  | _ :: prev => update fun s => { s with control := { s.control with points := prev } }

def pushFrame (func : Option Func) : Run Unit :=
  update fun s => { s with control := { s.control with frames := func :: s.control.frames } }

def popFrame : Run Unit :=
  update fun s => { s with control := { s.control with frames := s.control.frames.tail } }

def unwindUnwindPoint {α : Type} (type : UnwindType) : Run α := do
  let point ← currentUnwindPoint
  fail (.unwind point.address type)

/-- Where a jump goes on that leaves a function whose point is `me`: a
jump to that point enters the branch for jumps, any other goes on to the
function it is for. -/
def catchJump {α : Type} (me : Nat) (handler : UnwindType → Run α) (jump : Jump) : Run α :=
  match jump with
  | .unwind point type => if point = me then handler type else fail jump
  | .panic _ => fail jump

/-- `if ((unwind_type = EXEC_UNWIND_POINT()) == 0) body else handler`. -/
def execUnwindPoint {α : Type} (me : Nat) (body : Run α) (handler : UnwindType → Run α) : Run α :=
  body.handle (catchJump me handler)

/-- The branch for jumps in `call_func`. -/
def onReturn : UnwindType → Run Value
  | .ret => do
    let point ← currentUnwindPoint
    return point.retValue
  | _ => pure .undefined

def callFunc (func : Func) (body : Nat → Run Value) : Run Value := do
  let callerScope ← read State.currentScope
  let newScope ← onHeap Jump.panic (Heap.createScope func.scope)
  pushUnwindPoint
  pushFrame (some func)
  let point ← currentUnwindPoint
  let retValue ← execUnwindPoint point.address (body newScope) onReturn
  setCurrentScope callerScope
  setSelf .undefined
  popFrame
  popUnwindPoint
  return retValue

/-- The branch for jumps in `eval_WHILE`: whether the loop goes on. A return
is to go on unwinding, but the jump is to the current unwind point, and
that is still the one of the loop. -/
def onUnwind (me : Nat) : Nat → UnwindType → Run Bool
  | _, .brk => pure false
  | _, .cont => pure true
  | 0, .ret => stop .outOfFuel
  | k + 1, .ret => do
    let point ← currentUnwindPoint
    if point.address = me then onUnwind me k .ret else fail (.unwind point.address .ret)

/-- One round of the loop in `eval_WHILE`, to `while_continue`: whether
the loop goes on. -/
def round (me k : Nat) (condition stmts : Run Value) : Run Bool :=
  execUnwindPoint me (whileRound condition stmts) (onUnwind me k)

/-- The loop in `eval_WHILE`. -/
def whileLoop (me : Nat) (condition stmts : Run Value) : Nat → Run Unit
  | 0 => stop .outOfFuel
  | k + 1 => do
    let again ← round me k condition stmts
    if again then whileLoop me condition stmts k else pure ()

def evalWhile (k : Nat) (condition stmts : Run Value) : Run Value := do
  pushUnwindPoint
  let point ← currentUnwindPoint
  whileLoop point.address condition stmts k
  popUnwindPoint
  return .undefined

/-- The end of `eval_RETURN`. -/
def unwindReturn (retValue : Value) : Run Value := do
  update fun s => { s with currentScope := s.currentScope.bind s.heap.parentOf }
  let _ ← currentUnwindPoint
  update fun s =>
    { s with control :=
      { s.control with points := s.control.points.modifyHead ({ · with retValue := retValue }) } }
  unwindUnwindPoint .ret

end Machine

/-- **The control of `eval.c`.** -/
def machine : Control Unwind Jump where
  panic := Jump.panic
  callFunc := Machine.callFunc
  evalWhile := Machine.evalWhile
  unwindReturn := Machine.unwindReturn
  unwindBreak := Machine.unwindUnwindPoint .brk
  unwindContinue := Machine.unwindUnwindPoint .cont

/-- A jump that nothing in the program has caught, in `ena_eval`. -/
def onUncaught : UnwindType → Machine.Run Value
  | .ret => fail (.panic (runtimeError "uncaught unwind 1"))
  | .brk => fail (.panic (runtimeError "uncaught unwind 2"))
  | .cont => fail (.panic (runtimeError "uncaught unwind 3"))

/-- `ena_eval`, from the syntax tree on: the program in the scope of its
module. The source drops the value and returns whether there was an
error. -/
def enaEval (natives : Natives) (k : Nat) (scope : Nat) (tree : Node) : Machine.Run Value := do
  setCurrentScope (some scope)
  Machine.pushUnwindPoint
  Machine.pushFrame none
  let point ← Machine.currentUnwindPoint
  Machine.execUnwindPoint point.address (evalNode natives machine k tree) onUncaught

end Archives.Ena.Eval
