import Roast.Assembly.Evaluation
import Roast.Systems.Executions

/-! The meaning of the intermediate representation. An interpreter executes it over named variables in nested scopes; it
knows nothing of blocks, temporaries or storage names. A bound on the depth of calls and on the turns of a loop makes
it end. -/
namespace Roast
open Systems

/-- The variables of a scope with their words; a scalar has one word. -/
abbrev Bindings := List (String × List Word)

/-- The scopes of the active method, innermost first, the globals, the calls made so far, and the number of reads outside
an array. -/
structure Memory where
  locals : List Bindings
  globals : Bindings
  calls : List Call
  strays : Nat
  deriving DecidableEq, Repr

def IrField.initialWords (field : IrField) : List Word :=
  let literals := (field.initializer.map fun initializer => initializer.literals.map IrLiteral.word).getD []
  (literals ++ List.replicate field.arrayLength.toNat 0).take field.arrayLength.toNat

def declare (fields : List IrField) : Bindings :=
  fields.map fun field => (field.identifier, field.initialWords)

namespace Bindings

def assign (bindings : Bindings) (identifier : String) (position : Nat) (word : Word) : Bindings :=
  bindings.map fun binding =>
    if binding.1 = identifier then (binding.1, binding.2.set position word) else binding

/-- Assigns to the innermost variable of the name; `none` when no scope has one. -/
def assignInnermost (identifier : String) (position : Nat) (word : Word) : List Bindings → Option (List Bindings)
  | [] => none
  | scope :: scopes =>
    if (scope.lookup identifier).isSome then some (scope.assign identifier position word :: scopes)
    else (assignInnermost identifier position word scopes).map (scope :: ·)

end Bindings

namespace Memory

def find (memory : Memory) (identifier : String) : Option (List Word) :=
  (memory.locals.findSome? fun scope => scope.lookup identifier).or (memory.globals.lookup identifier)

def assign (memory : Memory) (identifier : String) (position : Nat) (word : Word) : Memory :=
  match Bindings.assignInnermost identifier position word memory.locals with
  | some locals => { memory with locals := locals }
  | none => { memory with globals := memory.globals.assign identifier position word }

def push (memory : Memory) (scope : Bindings) : Memory := { memory with locals := scope :: memory.locals }

def pop (memory : Memory) : Memory := { memory with locals := memory.locals.tail }

def withCall (memory : Memory) (call : Call) : Memory := { memory with calls := memory.calls ++ [call] }

end Memory

def IrAssignOperator.operator : IrAssignOperator → Option IrBinaryOperator
  | .set => none
  | .add | .increment => some .add
  | .sub | .decrement => some .sub
  | .mul => some .mul
  | .div => some .div
  | .mod => some .mod

inductive Exit where
  | next
  | breaks
  | continues
  | returns (value : Word)
  deriving DecidableEq, Repr

namespace Interpreter

abbrev Action := Execution Status Memory

/-- Reading an element is not checked: outside the array it gives some word. -/
def readOutside (environment : Environment) : Action Word := do
  let strays := (← Execution.get).strays
  Execution.modify fun memory => { memory with strays := strays + 1 }
  return environment.stray strays

def readWord (environment : Environment) (position : Nat) (words : List Word) : Action Word :=
  match words[position]? with
  | some word => pure word
  | none => readOutside environment

def read (environment : Environment) (identifier : String) (position : Nat) : Action Word := do
  match (← Execution.get).find identifier with
  | some words => readWord environment position words
  | none => Execution.undefined

def write (identifier : String) (position : Nat) (word : Word) : Action Unit :=
  Execution.modify fun memory => memory.assign identifier position word

def apply (operator : IrBinaryOperator) (left right : Word) : Action Word :=
  match operator.apply left right with
  | some word => pure word
  | none => Execution.stop .trapped

section
variable (environment : Environment) (invoke : String → List Word → Action Word)

mutual

/-- From left to right; the right side of `&&` and `||` only when it is needed. A boolean is 0 or 1; of another word,
which only an initializer `-true` gives, they ask whether it is 1. -/
def evaluate : IrExpression → Action Word
  | .binary operator left right => do
    let leftWord ← evaluate left
    if operator = .or then if leftWord = 1 then pure leftWord else evaluate right
    else if operator = .and then if leftWord = 1 then evaluate right else pure leftWord
    else apply operator leftWord (← evaluate right)
  | .not expression => do return boolWord ((← evaluate expression) = 0)
  | .negate expression => do return -(← evaluate expression)
  | .len _ length => pure (BitVec.ofInt 64 length)
  | .methodCall identifier arguments => do invoke identifier (← evaluateArguments arguments)
  | .literal literal => pure literal.word
  | .location location => evaluateLocation location

def evaluateLocation : IrLocation → Action Word
  | .scalar _ identifier => read environment identifier 0
  | .element _ identifier index => do read environment identifier (← evaluate index).toNat

def evaluateArguments : IrArguments → Action (List Word)
  | .nil => pure []
  | .string string rest => do return environment.stringAddress string :: (← evaluateArguments rest)
  | .expression expression rest => do
    let word ← evaluate expression
    return word :: (← evaluateArguments rest)

end

def checkIndex (index : Word) (words : List Word) : Action Nat :=
  if index.toNat < words.length then pure index.toNat else Execution.stop (.exited (-1))

/-- The position that is assigned to. An index is evaluated once, and the program ends when it is out of range. -/
def evaluatePosition : IrLocation → Action Nat
  | .scalar _ _ => pure 0
  | .element _ identifier index => do
    let position ← evaluate environment invoke index
    match (← Execution.get).find identifier with
    | some words => checkIndex position words
    | none => Execution.undefined

def evaluateSource : Option IrExpression → Action Word
  | some expression => evaluate environment invoke expression
  | none => pure 1

def executeWrite (assignOperator : IrAssignOperator) (identifier : String) (position : Nat) (source : Word) :
    Action Unit :=
  match assignOperator.operator with
  | none => write identifier position source
  | some operator => do
    let old ← read environment identifier position
    write identifier position (← apply operator old source)

/-- The old word is read after the right side was evaluated. -/
def executeAssignment (assignment : IrAssignment) : Action Unit := do
  let position ← evaluatePosition environment invoke assignment.location
  let source ← evaluateSource environment invoke assignment.expression
  executeWrite environment assignment.assignOperator assignment.location.identifier position source

def executeMethodCall (identifier : String) (arguments : IrArguments) : Action Unit := do
  let values ← evaluateArguments environment invoke arguments
  let _ ← invoke identifier values

def executeForUpdate : IrForUpdate → Action Unit
  | .assignment assignment => executeAssignment environment invoke assignment
  | .methodCall identifier arguments => executeMethodCall environment invoke identifier arguments

def followedBy (rest : Action Exit) : Exit → Action Exit
  | .next => rest
  | exit => pure exit

def afterTurn (again : Action Exit) : Exit → Action Exit
  | .next | .continues => again
  | .breaks => pure .next
  | .returns value => pure (.returns value)

/-- At most so many turns. `continue` goes on with the update. -/
def executeLoop (condition : Action Word) (body : Action Exit) (update : Action Unit) : Nat → Action Exit
  | 0 => Execution.unfinished
  | turns + 1 => do
    if (← condition) = 0 then pure .next
    else
      let exit ← body
      afterTurn (do update; executeLoop condition body update turns) exit

variable (turns : Nat)

mutual

def execute : IrStatement → Action Exit
  | .assignment assignment => do
    executeAssignment environment invoke assignment
    return .next
  | .methodCall identifier arguments => do
    executeMethodCall environment invoke identifier arguments
    return .next
  | .ifStatement condition ifBlock => do
    if (← evaluate environment invoke condition) = 0 then pure .next else executeBlock ifBlock
  | .ifElseStatement condition ifBlock elseBlock => do
    if (← evaluate environment invoke condition) = 0 then executeBlock elseBlock else executeBlock ifBlock
  | .forStatement initial condition update block => do
    executeAssignment environment invoke initial
    executeLoop (evaluate environment invoke condition) (executeBlock block)
      (executeForUpdate environment invoke update) turns
  | .whileStatement condition block =>
    executeLoop (evaluate environment invoke condition) (executeBlock block) (pure ()) turns
  | .returnStatement none => pure (.returns 0)
  | .returnStatement (some expression) => do return .returns (← evaluate environment invoke expression)
  | .breakStatement => pure .breaks
  | .continueStatement => pure .continues

/-- The fields of a block get their initial words whenever it is entered. -/
def executeBlock : IrBlock → Action Exit
  | .mk fields statements => do
    Execution.modify fun memory => memory.push (declare fields)
    let exit ← executeStatements statements
    Execution.modify Memory.pop
    return exit

def executeStatements : IrStatements → Action Exit
  | .nil => pure .next
  | .cons statement rest => do
    let exit ← execute statement
    followedBy (executeStatements rest) exit

end

/-- The arguments and the fields of a method are one scope. -/
def enter (method : IrMethod) (values : List Word) : IrBlock → Bindings
  | .mk fields _ => ((method.arguments.map IrField.identifier).zip (values.map fun value => [value])) ++ declare fields

def executeBody : IrBlock → Action Exit
  | .mk _ statements => executeStatements environment invoke turns statements

/-- A method that falls off its end returns 0 when it is `void`, and otherwise the program exits with -2. -/
def leaveMethod (method : IrMethod) (caller : List Bindings) : Exit → Action Word
  | .returns value => do
    Execution.modify fun memory => { memory with locals := caller }
    return value
  | .next =>
    if method.returnType = .void then do
      Execution.modify fun memory => { memory with locals := caller }
      return 0
    else Execution.stop (.exited (-2))
  | _ => Execution.undefined

def executeMethod (method : IrMethod) (values : List Word) : Action Word := do
  let caller := (← Execution.get).locals
  Execution.modify fun memory => { memory with locals := [enter method values method.block] }
  let exit ← executeBody environment invoke turns method.block
  leaveMethod method caller exit

end

section
variable (environment : Environment) (program : IrProgram) (entering : String → Bindings → Bindings)

def callImported : Action Word := do
  match environment.imported (← Execution.get).calls with
  | .returned value => pure value
  | .exited status => Execution.stop (.exited status)
  | .hung => Execution.stop .hung

/-- A call, with at most so many calls inside one another. `entering` is what a method does to the globals when it is
entered. -/
def invoke : Nat → String → List Word → Action Word
  | 0, _, _ => Execution.unfinished
  | bound + 1, identifier, values => do
    Execution.modify fun memory => memory.withCall (identifier, values)
    match program.methods.find? (fun method => method.identifier == identifier) with
    | some method =>
      Execution.modify fun memory => { memory with globals := entering identifier memory.globals }
      executeMethod environment (invoke bound) bound method values
    | none => callImported environment

def run (bound : Nat) (method : IrMethod) (values : List Word) (globals : Bindings) : Ending Status Memory Word :=
  executeMethod environment (invoke environment program entering bound) bound method values ⟨[], globals, [], 0⟩

end

end Interpreter

end Roast
