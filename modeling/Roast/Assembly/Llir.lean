import Roast.Semantics.Ir

/-! The low-level representation: methods are graphs of blocks of three-address assignments. A `char *`
that names a field is modelled by the field that owns the string; the code compares only the strings. -/
namespace Roast

/-- `declaration` is a ghost: the source declaration of the field, `none` for temporaries. -/
structure LlirField where
  identifier : String
  isArray : Bool
  valueCount : Int
  values : List Word
  declaration : Option IrField
  deriving DecidableEq, Repr

inductive LlirOperand where
  | field (field : LlirField)
  | literal (literal : Word)
  | string (string : String)
  deriving DecidableEq, Repr

inductive LlirUnaryType where
  | move | negate | not
  deriving DecidableEq, Repr

inductive LlirBinaryType where
  | add | subtract | multiply | divide | modulo
  | greater | greaterEqual | less | lessEqual | equal | notEqual
  deriving DecidableEq, Repr

/-- `guarded` is a ghost: the access follows the bounds check of `generate_assignment`. -/
inductive LlirAssignment where
  | unary (type : LlirUnaryType) (source : LlirOperand) (destination : LlirField)
  | binary (type : LlirBinaryType) (left right : LlirOperand) (destination : LlirField)
  | arrayUpdate (index value : LlirOperand) (destination : LlirField)
  | arrayAccess (index : LlirOperand) (array destination : LlirField) (guarded : Bool)
  | methodCall (method : String) (arguments : List LlirOperand) (destination : LlirField)
  deriving DecidableEq, Repr

def LlirAssignment.destination : LlirAssignment → LlirField
  | .unary _ _ destination | .binary _ _ _ destination | .arrayUpdate _ _ destination
  | .arrayAccess _ _ destination _ | .methodCall _ _ destination => destination

inductive LlirBranchType where
  | equal | notEqual | less | lessEqual | greater | greaterEqual
  deriving DecidableEq, Repr

/-- Control goes to `falseBlock` when the comparison holds and to `trueBlock` otherwise. -/
structure LlirBranch where
  type : LlirBranchType
  unsignedComparison : Bool
  left : LlirOperand
  right : LlirOperand
  trueBlock : Nat
  falseBlock : Nat
  deriving DecidableEq, Repr

inductive LlirTerminal where
  | unknown
  | branch (branch : LlirBranch)
  | jump (block : Nat)
  | llirReturn (source : LlirOperand)
  | shitYourself (returnValue : Word)
  deriving DecidableEq, Repr

def LlirTerminal.successors : LlirTerminal → List Nat
  | .branch terminal => [terminal.trueBlock, terminal.falseBlock]
  | .jump block => [block]
  | _ => []

structure LlirBlock where
  id : Nat
  fields : List LlirField
  assignments : List LlirAssignment
  terminal : LlirTerminal
  predecessors : List Nat
  deriving DecidableEq, Repr

structure LlirMethod where
  identifier : String
  arguments : List LlirField
  blocks : List LlirBlock
  deriving DecidableEq, Repr

structure Llir where
  fields : List LlirField
  methods : List LlirMethod
  deriving DecidableEq, Repr

def llirBlockNew (id : Nat) : LlirBlock :=
  { id := id, fields := [], assignments := [], terminal := .unknown, predecessors := [] }

/-- `llir_field_new`: the storage name carries the scope level, except at level 0. -/
def llirFieldNew (identifier : String) (scopeLevel : Nat) (isArray : Bool) (length : Int)
    (declaration : Option IrField) : LlirField :=
  { identifier := if scopeLevel = 0 then identifier else identifier ++ "@" ++ toString scopeLevel
    isArray := isArray, valueCount := length, values := List.replicate length.toNat 0
    declaration := declaration }

def llirOperandIsFieldGlobal (field : LlirField) : Bool :=
  field.identifier.toList.all fun character => character ≠ '$' && character ≠ '@'

namespace Llir

def method (llir : Llir) (identifier : String) : Option LlirMethod :=
  llir.methods.find? (fun method => method.identifier == identifier)

def IsGlobal (llir : Llir) (identifier : String) : Prop :=
  identifier ∈ llir.fields.map LlirField.identifier

instance (llir : Llir) (identifier : String) : Decidable (llir.IsGlobal identifier) := by
  unfold IsGlobal
  infer_instance

end Llir

def LlirMethod.block (method : LlirMethod) (id : Nat) : Option LlirBlock :=
  method.blocks.find? (fun block => block.id == id)

def LlirMethod.fields (method : LlirMethod) : List LlirField :=
  method.arguments ++ method.blocks.flatMap LlirBlock.fields

end Roast
