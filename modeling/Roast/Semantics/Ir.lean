import Mathlib.Data.List.Basic
import Mathlib.Data.BitVec

/-! The intermediate representation that `ir_program_new` builds from a parsed program.
Tokens are kept only as the text of integer literals; `node` stands for the address of the C object. -/
namespace Roast

/-- The 64-bit machine word, both `int64_t` and `uint64_t`. -/
abbrev Word := BitVec 64

inductive IrDataType where
  | void | voidArray | bool | boolArray | int | intArray
  deriving DecidableEq, Repr

namespace IrDataType

/-- `ir_data_type_is_array`: the array types are the odd enumerators. -/
def isArray : IrDataType → Bool
  | .void | .bool | .int => false
  | .voidArray | .boolArray | .intArray => true

def element : IrDataType → IrDataType
  | .voidArray => .void
  | .boolArray => .bool
  | .intArray => .int
  | type => type

def array : IrDataType → IrDataType
  | .void => .voidArray
  | .bool => .boolArray
  | .int => .intArray
  | type => type

@[simp] theorem isArray_array (type : IrDataType) : type.array.isArray = true := by cases type <;> rfl

@[simp] theorem isArray_element (type : IrDataType) : type.element.isArray = false := by
  cases type <;> rfl

end IrDataType

def INT64_MAX : Nat := 2 ^ 63 - 1

/-- `(uint64_t)-1`, which `string_to_int` returns on overflow. -/
def overflowMarker : Word := -1

def CharacterBetween (low high character : Char) : Prop :=
  low.toNat ≤ character.toNat ∧ character.toNat ≤ high.toNat

instance (low high character : Char) : Decidable (CharacterBetween low high character) := by
  unfold CharacterBetween
  infer_instance

def characterToInt (character : Char) : Word :=
  if CharacterBetween 'a' 'f' character then BitVec.ofNat 64 (character.toNat - 'a'.toNat + 10)
  else if CharacterBetween 'A' 'F' character then BitVec.ofNat 64 (character.toNat - 'A'.toNat + 10)
  else BitVec.ofNat 64 character.toNat - BitVec.ofNat 64 '0'.toNat

/-- The loop of `string_to_int`; the head of the list is `string[i]`, the characters still to come follow it. -/
def stringToIntLoop (maxValue base : Word) : List Char → Word → Word → Word
  | [], value, _ => value
  | character :: rest, value, place =>
    let digit := characterToInt character
    let increment := digit * place
    if increment / place ≠ digit then overflowMarker
    else if value + increment < value then overflowMarker
    else
      let value := value + increment
      if value > maxValue then overflowMarker
      else if rest ≠ [] ∧ (place * base) / place ≠ base then overflowMarker
      else stringToIntLoop maxValue base rest value (place * base)

/-- `string_to_int`, which reads the digits from the last to the first. -/
def stringToInt (string : List Char) (maxValue base : Word) : Word :=
  stringToIntLoop maxValue base string.reverse 0 1

/-- The token text of an integer literal: the scanner's pattern tells hexadecimal from decimal. -/
structure IntLiteralToken where
  hex : Bool
  digits : List Char
  deriving DecidableEq, Repr

def irIntLiteralFromAst (token : IntLiteralToken) (negate : Bool) : Word :=
  let maxValue := BitVec.ofNat 64 INT64_MAX + (if negate then 1 else 0)
  stringToInt token.digits maxValue (if token.hex then 16 else 10)

inductive IrLiteralType where
  | bool | char | int
  deriving DecidableEq, Repr

/-- `token` is the text of an integer literal, `none` for the other literals. -/
structure IrLiteral where
  negate : Bool
  type : IrLiteralType
  value : Word
  token : Option IntLiteralToken
  deriving DecidableEq, Repr

structure IrInitializer where
  array : Bool
  literals : List IrLiteral
  deriving DecidableEq, Repr

/-- `lengthToken` is the text of the length literal, which `ir_field_new` converts to `arrayLength`. -/
structure IrField where
  node : Nat
  type : IrDataType
  constant : Bool
  identifier : String
  arrayLength : Int
  lengthToken : Option IntLiteralToken
  initializer : Option IrInitializer
  deriving DecidableEq, Repr

inductive IrBinaryOperator where
  | or | and | equal | notEqual | less | lessEqual | greaterEqual | greater
  | add | sub | mul | div | mod
  deriving DecidableEq, Repr

mutual

inductive IrExpression where
  | binary (operator : IrBinaryOperator) (left right : IrExpression)
  | not (expression : IrExpression)
  | negate (expression : IrExpression)
  | len (identifier : String) (length : Int)
  | methodCall (identifier : String) (arguments : IrArguments)
  | literal (literal : IrLiteral)
  | location (location : IrLocation)

/-- A location is `scalar` when its `index` is `NULL`. -/
inductive IrLocation where
  | scalar (node : Nat) (identifier : String)
  | element (node : Nat) (identifier : String) (index : IrExpression)

inductive IrArguments where
  | nil
  | string (string : String) (rest : IrArguments)
  | expression (expression : IrExpression) (rest : IrArguments)

end

def IrLocation.node : IrLocation → Nat
  | .scalar node _ | .element node _ _ => node

def IrLocation.identifier : IrLocation → String
  | .scalar _ identifier | .element _ identifier _ => identifier

def IrArguments.length : IrArguments → Nat
  | .nil => 0
  | .string _ rest | .expression _ rest => rest.length + 1

inductive IrAssignOperator where
  | set | add | sub | mul | div | mod | increment | decrement
  deriving DecidableEq, Repr

structure IrAssignment where
  location : IrLocation
  assignOperator : IrAssignOperator
  expression : Option IrExpression

inductive IrForUpdate where
  | methodCall (identifier : String) (arguments : IrArguments)
  | assignment (assignment : IrAssignment)

mutual

inductive IrStatement where
  | assignment (assignment : IrAssignment)
  | methodCall (identifier : String) (arguments : IrArguments)
  | ifStatement (condition : IrExpression) (ifBlock : IrBlock)
  | ifElseStatement (condition : IrExpression) (ifBlock elseBlock : IrBlock)
  | forStatement (initial : IrAssignment) (condition : IrExpression) (update : IrForUpdate)
      (block : IrBlock)
  | whileStatement (condition : IrExpression) (block : IrBlock)
  | returnStatement (expression : Option IrExpression)
  | breakStatement
  | continueStatement

inductive IrBlock where
  | mk (fields : List IrField) (statements : IrStatements)

inductive IrStatements where
  | nil
  | cons (statement : IrStatement) (rest : IrStatements)

end

/-- For an import `arguments` and `block` are `NULL`, here empty. -/
structure IrMethod where
  imported : Bool
  returnType : IrDataType
  identifier : String
  arguments : List IrField
  block : IrBlock

structure IrProgram where
  imports : List IrMethod
  fields : List IrField
  methods : List IrMethod

end Roast
