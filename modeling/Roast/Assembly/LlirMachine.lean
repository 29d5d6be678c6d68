import Roast.Assembly.Llir

/-! A deterministic machine that runs an LLIR program: one step executes one assignment or one terminal of
the active method. What the program cannot determine (imported methods, the addresses of strings, the
contents of fresh stack slots and of memory outside an array) is given by an environment. -/
namespace Roast

abbrev Call := String × List Word

inductive Response where
  | returned (value : Word)
  | exited (status : Word)
  | hung
  deriving DecidableEq, Repr

/-- `imported` sees the calls made so far, the current one included; `garbage` gives the words in the
frame of an activation before they are written, `stray` the words read outside an array. -/
structure Environment where
  imported : List Call → Response
  stringAddress : String → Word
  garbage : Nat → String → Nat → Word
  stray : Nat → Word

inductive Origin where
  | garbage
  | argument (field : LlirField)
  | stored (field : LlirField)
  deriving DecidableEq, Repr

structure Cell where
  value : Word
  origin : Origin
  deriving DecidableEq, Repr

abbrev Store := String → Nat → Cell

def Store.set (store : Store) (name : String) (position : Nat) (cell : Cell) : Store :=
  fun name' position' => if name' = name ∧ position' = position then cell else store name' position'

/-- An activation of a method; `index` counts the assignments of the block already executed. -/
structure Frame where
  method : String
  block : Nat
  index : Nat
  locals : Store

inductive Status where
  | running
  | returned (value : Word)
  | exited (status : Word)
  | hung
  | trapped
  | stuck
  deriving DecidableEq, Repr

structure MachineState where
  status : Status
  frames : List Frame
  globals : Store
  calls : List Call
  activations : Nat
  strays : Nat

def boolWord (condition : Bool) : Word := if condition then 1 else 0

def LlirUnaryType.apply (operation : LlirUnaryType) (value : Word) : Word :=
  match operation with
  | .move => value
  | .negate => -value
  | .not => boolWord (value == 0)

def divisionTraps (left right : Word) : Prop := right = 0 ∨ left = BitVec.intMin 64 ∧ right = -1

instance (left right : Word) : Decidable (divisionTraps left right) := by
  unfold divisionTraps
  infer_instance

/-- Division truncates towards zero; `none` is a trap. -/
def LlirBinaryType.apply (operation : LlirBinaryType) (left right : Word) : Option Word :=
  match operation with
  | .add => some (left + right)
  | .subtract => some (left - right)
  | .multiply => some (left * right)
  | .divide => if divisionTraps left right then none else some (left.sdiv right)
  | .modulo => if divisionTraps left right then none else some (left.srem right)
  | .greater => some (boolWord (right.slt left))
  | .greaterEqual => some (boolWord (right.sle left))
  | .less => some (boolWord (left.slt right))
  | .lessEqual => some (boolWord (left.sle right))
  | .equal => some (boolWord (left == right))
  | .notEqual => some (boolWord (left != right))

def LlirBranchType.holds (comparison : LlirBranchType) (unsignedComparison : Bool) (left right : Word) : Bool :=
  match comparison with
  | .equal => left == right
  | .notEqual => left != right
  | .less => if unsignedComparison then left.ult right else left.slt right
  | .lessEqual => if unsignedComparison then left.ule right else left.sle right
  | .greater => if unsignedComparison then right.ult left else right.slt left
  | .greaterEqual => if unsignedComparison then right.ule left else right.sle left

/-- The position an index denotes in an array; a negative index is a large one. -/
def InBounds (index : Word) (array : LlirField) : Prop := (index.toNat : Int) < array.valueCount

instance (index : Word) (array : LlirField) : Decidable (InBounds index array) := by
  unfold InBounds
  infer_instance

section
variable (llir : Llir) (environment : Environment)

namespace MachineState

def cell (s : MachineState) (frame : Frame) (field : LlirField) (position : Nat) : Cell :=
  if llir.IsGlobal field.identifier then s.globals field.identifier position
  else frame.locals field.identifier position

/-- An array passed by name reads its first word. -/
def operand (s : MachineState) (frame : Frame) : LlirOperand → Word
  | .field field => (s.cell llir frame field 0).value
  | .literal literal => literal
  | .string string => environment.stringAddress string

def store (s : MachineState) (frame : Frame) (rest : List Frame) (field : LlirField) (position : Nat)
    (value : Word) : MachineState :=
  if llir.IsGlobal field.identifier then
    { s with
      globals := s.globals.set field.identifier position ⟨value, .stored field⟩
      frames := { frame with index := frame.index + 1 } :: rest }
  else
    { s with frames := { frame with
        index := frame.index + 1
        locals := frame.locals.set field.identifier position ⟨value, .stored field⟩ } :: rest }

end MachineState

def enterMethod (activation : Nat) (method : LlirMethod) (values : List Word) : Frame where
  method := method.identifier
  block := (method.blocks.head?.map LlirBlock.id).getD 0
  index := 0
  locals := (method.arguments.zip values).foldl
    (fun store argument => store.set argument.1.identifier 0 ⟨argument.2, .argument argument.1⟩)
    (fun name position => ⟨environment.garbage activation name position, .garbage⟩)

/-- A call to a method of the program or, when it has none of that name, to an imported one. -/
def callMethod (s : MachineState) (frame : Frame) (rest : List Frame) (name : String) (values : List Word)
    (destination : LlirField) : MachineState :=
  let s := { s with calls := s.calls ++ [(name, values)] }
  match llir.method name with
  | some method =>
    if method.arguments.length = values.length then
      { s with
        frames := enterMethod environment s.activations method values :: frame :: rest
        activations := s.activations + 1 }
    else { s with status := .stuck }
  | none =>
    match environment.imported s.calls with
    | .returned value => s.store llir frame rest destination 0 value
    | .exited status => { s with status := .exited status }
    | .hung => { s with status := .hung }

def stepAssignment (s : MachineState) (frame : Frame) (rest : List Frame) : LlirAssignment → MachineState
  | .unary type source destination =>
    s.store llir frame rest destination 0 (type.apply (s.operand llir environment frame source))
  | .binary type left right destination =>
    match type.apply (s.operand llir environment frame left) (s.operand llir environment frame right) with
    | some value => s.store llir frame rest destination 0 value
    | none => { s with status := .trapped }
  | .arrayUpdate index value destination =>
    let position := s.operand llir environment frame index
    if InBounds position destination then
      s.store llir frame rest destination position.toNat (s.operand llir environment frame value)
    else { s with status := .stuck }
  | .arrayAccess index array destination _ =>
    let position := s.operand llir environment frame index
    if InBounds position array then
      s.store llir frame rest destination 0 (s.cell llir frame array position.toNat).value
    else
      { s with strays := s.strays + 1 }.store llir frame rest destination 0 (environment.stray s.strays)
  | .methodCall name arguments destination =>
    callMethod llir environment s frame rest name (arguments.map (s.operand llir environment frame)) destination

def Frame.assignment (frame : Frame) : Option LlirAssignment :=
  (llir.method frame.method).bind fun method =>
    (method.block frame.block).bind fun block => block.assignments[frame.index]?

def returnValue (s : MachineState) (rest : List Frame) (value : Word) : MachineState :=
  match rest with
  | [] => { s with frames := [], status := .returned value }
  | caller :: rest =>
    match caller.assignment llir with
    | some assignment => s.store llir caller rest assignment.destination 0 value
    | none => { s with status := .stuck }

def stepTerminal (s : MachineState) (frame : Frame) (rest : List Frame) : LlirTerminal → MachineState
  | .unknown => { s with status := .stuck }
  | .jump block => { s with frames := { frame with block := block, index := 0 } :: rest }
  | .branch branch =>
    let holds := branch.type.holds branch.unsignedComparison
      (s.operand llir environment frame branch.left) (s.operand llir environment frame branch.right)
    let target := if holds then branch.falseBlock else branch.trueBlock
    { s with frames := { frame with block := target, index := 0 } :: rest }
  | .llirReturn source => returnValue llir s rest (s.operand llir environment frame source)
  | .shitYourself status => { s with status := .exited status }

def stepBlock (s : MachineState) (frame : Frame) (rest : List Frame) (block : LlirBlock) : MachineState :=
  match block.assignments[frame.index]? with
  | some assignment => stepAssignment llir environment s frame rest assignment
  | none => stepTerminal llir environment s frame rest block.terminal

def step (s : MachineState) : MachineState :=
  if s.status = .running then
    match s.frames with
    | [] => { s with status := .stuck }
    | frame :: rest =>
      match (llir.method frame.method).bind fun method => method.block frame.block with
      | some block => stepBlock llir environment s frame rest block
      | none => { s with status := .stuck }
  else s

/-- The state after `n` steps; a machine that has stopped stays as it is. -/
def run (s : MachineState) : Nat → MachineState
  | 0 => s
  | n + 1 => step llir environment (run s n)

def startMethod (method : LlirMethod) (values : List Word) (globals : Store) : MachineState where
  status := .running
  frames := [enterMethod environment 0 method values]
  globals := globals
  calls := []
  activations := 1
  strays := 0

end

def Llir.initialGlobals (llir : Llir) : Store := fun name position =>
  match llir.fields.find? (fun field => field.identifier == name) with
  | some field => ⟨field.values.getD position 0, .stored field⟩
  | none => ⟨0, .garbage⟩

end Roast
