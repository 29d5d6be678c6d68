import Roast.Assembly.LlirMachine
import Roast.Assembly.Names
import Roast.Systems.Safety

/-! What holds in the states of a run: reads of initialized variables only, guarded indices in range, and
boolean variables that hold 0 or 1. -/
namespace Roast

def LlirField.IsBool (field : LlirField) : Prop :=
  ∃ declaration ∈ field.declaration, declaration.type.element = .bool

/-- The field is boolean and has a negated `true` in its initializer. -/
def IrField.NegatesTrue (field : IrField) : Prop :=
  field.type.element = .bool ∧ ∃ initializer ∈ field.initializer, ∃ literal ∈ initializer.literals,
    literal.negate = true ∧ literal.value = 1

instance (field : IrField) : Decidable field.NegatesTrue :=
  inferInstanceAs (Decidable (field.type.element = .bool ∧ ∃ initializer ∈ field.initializer,
    ∃ literal ∈ initializer.literals, literal.negate = true ∧ literal.value = 1))

def CanonicalWord (value : Word) : Prop := value = 0 ∨ value = 1

instance (value : Word) : Decidable (CanonicalWord value) := inferInstanceAs (Decidable (value = 0 ∨ value = 1))

theorem canonicalWord_boolWord (condition : Bool) : CanonicalWord (boolWord condition) := by
  cases condition
  · exact .inl rfl
  · exact .inr rfl

/-- A word that was stored through a boolean variable is 0 or 1. -/
def Cell.Canonical (cell : Cell) : Prop :=
  ∀ field, cell.origin = .argument field ∨ cell.origin = .stored field → field.IsBool → CanonicalWord cell.value

def Store.Canonical (store : Store) : Prop := ∀ name position, (store name position).Canonical

def Cell.BelongsTo (arguments : List LlirField) (field : LlirField) (cell : Cell) : Prop :=
  cell.origin = .stored field ∨ cell.origin = .argument field ∧ field ∈ arguments

theorem Cell.BelongsTo.canonical {arguments : List LlirField} {field : LlirField} {cell : Cell}
    (h : cell.BelongsTo arguments field) (canonical : cell.Canonical) (bool : field.IsBool) :
    CanonicalWord cell.value := by
  obtain h | ⟨h, -⟩ := h
  · exact canonical field (.inr h) bool
  · exact canonical field (.inl h) bool

theorem Store.Canonical.set {store : Store} (h : store.Canonical) {field : LlirField} {value : Word}
    (canonical : field.IsBool → CanonicalWord value) (name : String) (position : Nat) :
    (store.set name position ⟨value, .stored field⟩).Canonical := by
  intro name' position'
  unfold Store.set
  split
  · rintro other (same | same) bool
    · cases same
    · cases same
      exact canonical bool
  · exact h name' position'

def GlobalsOwned (llir : Llir) (globals : Store) : Prop :=
  ∀ field ∈ llir.fields, ∀ position : Nat, position < field.valueCount →
    (globals field.identifier position).origin = .stored field

def LlirAssignment.operands : LlirAssignment → List LlirOperand
  | .unary _ source _ => [source]
  | .binary _ left right _ => [left, right]
  | .arrayUpdate index value _ => [index, value]
  | .arrayAccess index _ _ _ => [index]
  | .methodCall _ arguments _ => arguments

def LlirAssignment.array : LlirAssignment → Option LlirField
  | .arrayUpdate _ _ destination => some destination
  | .arrayAccess _ array _ _ => some array
  | _ => none

def LlirTerminal.operands : LlirTerminal → List LlirOperand
  | .branch terminal => [terminal.left, terminal.right]
  | .llirReturn source => [source]
  | _ => []

def Frame.code (llir : Llir) (frame : Frame) : Option LlirBlock :=
  (llir.method frame.method).bind fun method => method.block frame.block

theorem Frame.assignment_eq (llir : Llir) (frame : Frame) :
    frame.assignment llir = (frame.code llir).bind fun block => block.assignments[frame.index]? := by
  simp [Frame.assignment, Frame.code, Option.bind_assoc]

section
variable (llir : Llir) (environment : Environment) (program : IrProgram) (canonical : Prop)

def OperandsOwned (frame : Frame) (operands : List LlirOperand) : Prop :=
  ∀ method, llir.method frame.method = some method → ∀ field, .field field ∈ operands →
    ¬ llir.IsGlobal field.identifier → (frame.locals field.identifier 0).BelongsTo method.arguments field

structure GoodAssignment (s : MachineState) (frame : Frame) (assignment : LlirAssignment) : Prop where
  operands : OperandsOwned llir frame assignment.operands
  declared : ∀ array ∈ assignment.array, ∃ declaration ∈ array.declaration,
    declaration.arrayLength = array.valueCount
  update : ∀ index value array, assignment = .arrayUpdate index value array →
    InBounds (s.operand llir environment frame index) array
  access : ∀ index array destination, assignment = .arrayAccess index array destination true →
    InBounds (s.operand llir environment frame index) array
  element : ∀ index array destination guarded, assignment = .arrayAccess index array destination guarded →
    InBounds (s.operand llir environment frame index) array → ¬ llir.IsGlobal array.identifier →
    ∀ method, llir.method frame.method = some method →
      (frame.locals array.identifier (s.operand llir environment frame index).toNat).BelongsTo method.arguments array

structure GoodTerminal (s : MachineState) (frame : Frame) (terminal : LlirTerminal) : Prop where
  operands : OperandsOwned llir frame terminal.operands
  returns : canonical → ∀ source, terminal = .llirReturn source →
    (∃ method ∈ program.methods, method.identifier = frame.method ∧ method.returnType = .bool) →
    CanonicalWord (s.operand llir environment frame source)
  -- a failed bounds check ends the program
  guard : ∀ branch, terminal = .branch branch → branch.unsignedComparison = true →
    ∀ method, llir.method frame.method = some method →
      ∃ block, method.block branch.trueBlock = some block ∧ block.assignments = [] ∧
        block.terminal = .shitYourself (-1)

structure GoodState (s : MachineState) : Prop where
  globals : canonical → s.globals.Canonical ∧ GlobalsOwned llir s.globals
  locals : canonical → ∀ frame ∈ s.frames, frame.locals.Canonical
  assignment : s.status = .running → ∀ frame ∈ s.frames.head?, ∀ block ∈ frame.code llir,
    ∀ assignment ∈ block.assignments[frame.index]?, GoodAssignment llir environment s frame assignment
  terminal : s.status = .running → ∀ frame ∈ s.frames.head?, ∀ block ∈ frame.code llir,
    block.assignments[frame.index]? = none → GoodTerminal llir environment program canonical s frame block.terminal

/-- A step that keeps booleans canonical: it does not store into a local that is declared with a negated `true`, and
reads no word outside a boolean array. Such a local is stored into as soon as its declaration is entered. -/
structure KeepsCanonical (s : MachineState) (frame : Frame) (assignment : LlirAssignment) : Prop where
  declared : ¬ llir.IsGlobal assignment.destination.identifier →
    ∀ declaration ∈ assignment.destination.declaration, ¬ declaration.NegatesTrue
  access : ∀ index array destination guarded, assignment = .arrayAccess index array destination guarded →
    array.IsBool → InBounds (s.operand llir environment frame index) array

def AllowedStep (s : MachineState) : Prop :=
  canonical → s.status = .running → ∀ frame ∈ s.frames.head?, ∀ block ∈ frame.code llir,
    ∀ assignment ∈ block.assignments[frame.index]?, KeepsCanonical llir environment s frame assignment

abbrev Safe (n : Nat) (s : MachineState) : Prop :=
  Systems.SafeFor (step llir environment) (AllowedStep llir environment canonical)
    (GoodState llir environment program canonical) n s

end

theorem step_stopped {llir : Llir} {environment : Environment} {s : MachineState} (h : s.status ≠ .running) :
    step llir environment s = s := if_neg h

end Roast
