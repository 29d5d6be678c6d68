import Roast.Parser.Grammar

/-! The construction of the intermediate representation from the linear form of a program, `ir.c`. `none` is a failed
assertion, or a node read behind the last one. -/
namespace Roast

/-- The nodes that are left, and how many objects have an address. -/
structure IrBuilder where
  nodes : List LinearNode
  allocated : Nat

namespace IrBuilder

def peek (b : IrBuilder) : Option AstNodeType := b.nodes.head?.map LinearNode.type

def next (b : IrBuilder) : Option (LinearNode × IrBuilder) :=
  match b.nodes with
  | [] => none
  | node :: rest => some (node, { b with nodes := rest })

def take (type : AstNodeType) (b : IrBuilder) : Option (LinearNode × IrBuilder) :=
  match b.nodes with
  | [] => none
  | node :: rest => if node.type = type then some (node, { b with nodes := rest }) else none

/-- `if (peek_node(nodes)->type == type) next_node(nodes)`: whether a node of the type is next. -/
def skip (type : AstNodeType) (b : IrBuilder) : Option (Bool × IrBuilder) :=
  match b.nodes with
  | [] => none
  | node :: rest => if node.type = type then some (true, { b with nodes := rest }) else some (false, b)

def allocate (b : IrBuilder) : Nat × IrBuilder := (b.allocated, { b with allocated := b.allocated + 1 })

end IrBuilder

/-- `while (peek_node(nodes)->type == type)` over a constructor, at most `n - 1` times. -/
def irMany {α : Type} (type : AstNodeType) (one : IrBuilder → Option (α × IrBuilder)) :
    Nat → IrBuilder → Option (List α × IrBuilder)
  | 0, _ => none
  | n + 1, b => do
    if (← b.peek) = type then
      let (item, b) ← one b
      let (items, b) ← irMany type one n b
      return (item :: items, b)
    else return ([], b)

section
variable (source : List Char)

def tokenGetString (token : Token) : List Char := (source.drop token.offset).take token.length

def irIdentifierFromAst (b : IrBuilder) : Option (String × IrBuilder) := do
  let (node, b) ← b.take .identifier
  let token ← node.token
  return (String.ofList (tokenGetString source token), b)

def irStringLiteralFromAst (b : IrBuilder) : Option (String × IrBuilder) := do
  let (node, b) ← b.take .stringLiteral
  let token ← node.token
  return (String.ofList (tokenGetString source token), b)

/-- The text of an integer literal; the digits of a hexadecimal one begin behind `0x`. -/
def intLiteralToken (token : Token) : IntLiteralToken :=
  if token.type = .hexLiteral then ⟨true, (tokenGetString source token).drop 2⟩ else ⟨false, tokenGetString source token⟩

def irIntLiteralNode (b : IrBuilder) : Option (IntLiteralToken × IrBuilder) := do
  let (node, b) ← b.take .intLiteral
  let token ← node.token
  return (intLiteralToken source token, b)

def irBoolLiteralFromAst (b : IrBuilder) : Option (Bool × IrBuilder) := do
  let (node, b) ← b.take .boolLiteral
  let token ← node.token
  match token.type with
  | .keywordTrue => return (true, b)
  | .keywordFalse => return (false, b)
  | _ => none

def handleBackslashSequence : List Char → Option Char
  | '\\' :: '\"' :: _ => some '\"'
  | '\\' :: '\'' :: _ => some '\''
  | '\\' :: '\\' :: _ => some '\\'
  | '\\' :: 't' :: _ => some '\t'
  | '\\' :: 'n' :: _ => some '\n'
  | _ => none

/-- The character of a literal's text; behind the text stands a NUL. -/
def charLiteralValue : List Char → Option Char
  | [] => none
  | [_] => some '\x00'
  | _ :: character :: rest => if character = '\\' then handleBackslashSequence (character :: rest) else some character

def irCharLiteralFromAst (b : IrBuilder) : Option (Char × IrBuilder) := do
  let (node, b) ← b.take .charLiteral
  let token ← node.token
  let character ← charLiteralValue (tokenGetString source token)
  return (character, b)

def irDataTypeFromAst (b : IrBuilder) : Option (IrDataType × IrBuilder) := do
  let (node, b) ← b.next
  match node.type, node.token.map Token.type with
  | .void, _ => return (.void, b)
  | .dataType, some .keywordInt => return (.int, b)
  | .dataType, some .keywordBool => return (.bool, b)
  | _, _ => none

def irLiteralNew (b : IrBuilder) : Option (IrLiteral × IrBuilder) := do
  let (_, b) ← b.take .literal
  let (negate, b) ← b.skip .literalNegation
  match ← b.peek with
  | .intLiteral =>
    let (token, b) ← irIntLiteralNode source b
    return (⟨negate, .int, Roast.irIntLiteralFromAst token negate, some token⟩, b)
  | .boolLiteral =>
    let (value, b) ← irBoolLiteralFromAst b
    return (⟨negate, .bool, BitVec.ofBool value |>.setWidth 64, none⟩, b)
  | .charLiteral =>
    let (value, b) ← irCharLiteralFromAst source b
    return (⟨negate, .char, BitVec.ofNat 64 value.toNat, none⟩, b)
  | _ => none

def irInitializerNew (n : Nat) (b : IrBuilder) : Option (IrInitializer × IrBuilder) := do
  let (_, b) ← b.take .initializer
  let (array, b) ← b.skip .arrayLiteral
  let (literals, b) ← irMany .literal (irLiteralNew source) n b
  return (⟨array, literals⟩, b)

def irLengthNew (type : IrDataType) (b : IrBuilder) :
    Option ((IrDataType × Int × Option IntLiteralToken) × IrBuilder) := do
  match ← b.peek with
  | .intLiteral =>
    let (token, b) ← irIntLiteralNode source b
    return ((type.array, (Roast.irIntLiteralFromAst token false).toInt, some token), b)
  | .emptyArrayLength =>
    let (_, b) ← b.next
    return ((type.array, -1, none), b)
  | _ => return ((type, 1, none), b)

def irFieldNew (n : Nat) (constant : Bool) (type : IrDataType) (b : IrBuilder) : Option (IrField × IrBuilder) := do
  let (_, b) ← b.take .fieldIdentifier
  let (node, b) := b.allocate
  let (identifier, b) ← irIdentifierFromAst source b
  let (length, b) ← irLengthNew source type b
  if (← b.peek) = .initializer then
    let (initializer, b) ← irInitializerNew source n b
    return (⟨node, length.1, constant, identifier, length.2.1, length.2.2, some initializer⟩, b)
  else return (⟨node, length.1, constant, identifier, length.2.1, length.2.2, none⟩, b)

def irFieldNewFromMethodArgument (b : IrBuilder) : Option (IrField × IrBuilder) := do
  let (_, b) ← b.take .methodArgument
  let (node, b) := b.allocate
  let (type, b) ← irDataTypeFromAst b
  let (identifier, b) ← irIdentifierFromAst source b
  return (⟨node, type, false, identifier, 1, none, none⟩, b)

def iterateFields (n : Nat) (b : IrBuilder) : Option (List IrField × IrBuilder) := do
  let (_, b) ← b.take .field
  let (constant, b) ← b.skip .const
  let (type, b) ← irDataTypeFromAst b
  irMany .fieldIdentifier (irFieldNew source n constant type) n b

-- `expression` stands for `ir_expression_new`, below.

def irAssignOperator : TokenType → Option IrAssignOperator
  | .assign => some .set
  | .addAssign => some .add
  | .subAssign => some .sub
  | .mulAssign => some .mul
  | .divAssign => some .div
  | .modAssign => some .mod
  | .increment => some .increment
  | .decrement => some .decrement
  | _ => none

def irBinaryOperator : TokenType → Option IrBinaryOperator
  | .or => some .or
  | .and => some .and
  | .equal => some .equal
  | .notEqual => some .notEqual
  | .less => some .less
  | .lessEqual => some .lessEqual
  | .greaterEqual => some .greaterEqual
  | .greater => some .greater
  | .add => some .add
  | .sub => some .sub
  | .mul => some .mul
  | .div => some .div
  | .mod => some .mod
  | _ => none

section
variable (expression : IrBuilder → Option (IrExpression × IrBuilder))

def irLocationNew (b : IrBuilder) : Option (IrLocation × IrBuilder) := do
  let (_, b) ← b.take .location
  let (node, b) := b.allocate
  let (identifier, b) ← irIdentifierFromAst source b
  let (indexed, b) ← b.skip .locationIndex
  if indexed then
    let (index, b) ← expression b
    return (.element node identifier index, b)
  else return (.scalar node identifier, b)

def irArgumentsNew : Nat → IrBuilder → Option (IrArguments × IrBuilder)
  | 0, _ => none
  | n + 1, b => do
    if (← b.peek) ≠ .methodCallEnd then
      let (_, b) ← b.take .methodCallArgument
      match ← b.peek with
      | .stringLiteral =>
        let (string, b) ← irStringLiteralFromAst source b
        let (rest, b) ← irArgumentsNew n b
        return (.string string rest, b)
      | .expression =>
        let (argument, b) ← expression b
        let (rest, b) ← irArgumentsNew n b
        return (.expression argument rest, b)
      | _ => none
    else
      let (_, b) ← b.take .methodCallEnd
      return (.nil, b)

def irMethodCallNew (n : Nat) (b : IrBuilder) : Option ((String × IrArguments) × IrBuilder) := do
  let (_, b) ← b.take .methodCall
  let (identifier, b) ← irIdentifierFromAst source b
  let (arguments, b) ← irArgumentsNew source expression n b
  return ((identifier, arguments), b)

def irBinaryExpressionNew (b : IrBuilder) : Option (IrExpression × IrBuilder) := do
  let (_, b) ← b.take .binaryExpression
  let (left, b) ← expression b
  let (node, b) ← b.next
  let operator ← node.token.bind fun token => irBinaryOperator token.type
  let (right, b) ← expression b
  return (.binary operator left right, b)

end

def irLengthExpressionNew (b : IrBuilder) : Option (IrExpression × IrBuilder) := do
  let (_, b) ← b.take .lenExpression
  let (identifier, b) ← irIdentifierFromAst source b
  return (.len identifier 1, b)

/-- `ir_expression_new` with expressions nested at most `n - 1` deep. -/
def irExpressionNew : Nat → IrBuilder → Option (IrExpression × IrBuilder)
  | 0, _ => none
  | n + 1, b => do
    let (_, b) ← b.take .expression
    match ← b.peek with
    | .binaryExpression => irBinaryExpressionNew (irExpressionNew n) b
    | .notExpression =>
      let (_, b) ← b.next
      let (expression, b) ← irExpressionNew n b
      return (.not expression, b)
    | .negateExpression =>
      let (_, b) ← b.next
      let (expression, b) ← irExpressionNew n b
      return (.negate expression, b)
    | .lenExpression => irLengthExpressionNew source b
    | .methodCall =>
      let (call, b) ← irMethodCallNew source (irExpressionNew n) n b
      return (.methodCall call.1 call.2, b)
    | .literal =>
      let (literal, b) ← irLiteralNew source b
      return (.literal literal, b)
    | .location =>
      let (location, b) ← irLocationNew source (irExpressionNew n) b
      return (.location location, b)
    | _ => none

section
variable (n : Nat)

def irAssignmentNew (b : IrBuilder) : Option (IrAssignment × IrBuilder) := do
  let (_, b) ← b.take .assignment
  let (location, b) ← irLocationNew source (irExpressionNew source n) b
  let (node, b) ← b.next
  let operator ← node.token.bind fun token => irAssignOperator token.type
  if operator ≠ .increment ∧ operator ≠ .decrement then
    let (expression, b) ← irExpressionNew source n b
    return (⟨location, operator, some expression⟩, b)
  else return (⟨location, operator, none⟩, b)

def irAssignmentNewFromIdentifier (identifier : String) (expression : IrExpression) (b : IrBuilder) :
    IrAssignment × IrBuilder :=
  let (node, b) := b.allocate
  (⟨.scalar node identifier, .set, some expression⟩, b)

def irForUpdateNew (b : IrBuilder) : Option (IrForUpdate × IrBuilder) := do
  let (_, b) ← b.take .forUpdate
  match ← b.peek with
  | .methodCall =>
    let (call, b) ← irMethodCallNew source (irExpressionNew source n) n b
    return (.methodCall call.1 call.2, b)
  | .assignment =>
    let (assignment, b) ← irAssignmentNew source n b
    return (.assignment assignment, b)
  | _ => none

section
variable (block : IrBuilder → Option (IrBlock × IrBuilder))

def irIfStatementNew (b : IrBuilder) : Option (IrStatement × IrBuilder) := do
  let (_, b) ← b.take .ifStatement
  let (condition, b) ← irExpressionNew source n b
  let (ifBlock, b) ← block b
  if (← b.peek) = .block then
    let (elseBlock, b) ← block b
    return (.ifElseStatement condition ifBlock elseBlock, b)
  else return (.ifStatement condition ifBlock, b)

def irForStatementNew (b : IrBuilder) : Option (IrStatement × IrBuilder) := do
  let (_, b) ← b.take .forStatement
  let (identifier, b) ← irIdentifierFromAst source b
  let (initializer, b) ← irExpressionNew source n b
  let (initial, b) := irAssignmentNewFromIdentifier identifier initializer b
  let (condition, b) ← irExpressionNew source n b
  let (update, b) ← irForUpdateNew source n b
  let (block, b) ← block b
  return (.forStatement initial condition update block, b)

def irWhileStatementNew (b : IrBuilder) : Option (IrStatement × IrBuilder) := do
  let (_, b) ← b.take .whileStatement
  let (condition, b) ← irExpressionNew source n b
  let (block, b) ← block b
  return (.whileStatement condition block, b)

def irStatementNew (b : IrBuilder) : Option (IrStatement × IrBuilder) := do
  let (_, b) ← b.take .statement
  match ← b.peek with
  | .ifStatement => irIfStatementNew source n block b
  | .forStatement => irForStatementNew source n block b
  | .whileStatement => irWhileStatementNew source n block b
  | .returnStatement =>
    let (_, b) ← b.next
    if (← b.peek) = .expression then
      let (expression, b) ← irExpressionNew source n b
      return (.returnStatement (some expression), b)
    else return (.returnStatement none, b)
  | .breakStatement =>
    let (_, b) ← b.next
    return (.breakStatement, b)
  | .continueStatement =>
    let (_, b) ← b.next
    return (.continueStatement, b)
  | .methodCall =>
    let (call, b) ← irMethodCallNew source (irExpressionNew source n) n b
    return (.methodCall call.1 call.2, b)
  | .assignment =>
    let (assignment, b) ← irAssignmentNew source n b
    return (.assignment assignment, b)
  | _ => none

end

def irFieldsNew (b : IrBuilder) : Option (List IrField × IrBuilder) := do
  let (fields, b) ← irMany .field (iterateFields source n) n b
  return (fields.flatten, b)

def IrStatements.ofList : List IrStatement → IrStatements
  | [] => .nil
  | statement :: rest => .cons statement (IrStatements.ofList rest)

def irBlockNew : Nat → IrBuilder → Option (IrBlock × IrBuilder)
  | 0, _ => none
  | m + 1, b => do
    let (_, b) ← b.take .block
    let (fields, b) ← irFieldsNew source n b
    let (statements, b) ← irMany .statement (irStatementNew source n (irBlockNew m)) n b
    let (_, b) ← b.take .blockEnd
    return (.mk fields (IrStatements.ofList statements), b)

def irMethodNew (b : IrBuilder) : Option (IrMethod × IrBuilder) := do
  let (_, b) ← b.take .method
  let (returnType, b) ← irDataTypeFromAst b
  let (identifier, b) ← irIdentifierFromAst source b
  let (arguments, b) ← irMany .methodArgument (irFieldNewFromMethodArgument source) n b
  let (block, b) ← irBlockNew source n n b
  return (⟨false, returnType, identifier, arguments, block⟩, b)

def irMethodNewFromImport (b : IrBuilder) : Option (IrMethod × IrBuilder) := do
  let (_, b) ← b.take .import
  let (identifier, b) ← irIdentifierFromAst source b
  return (⟨true, .int, identifier, [], .mk [] .nil⟩, b)

/-- `ir_program_new`: the program and the nodes that are left. -/
def irProgramNew (nodes : List LinearNode) : Option (IrProgram × List LinearNode) := do
  let (_, b) ← IrBuilder.take .program ⟨nodes, 0⟩
  let (imports, b) ← irMany .import (irMethodNewFromImport source) n b
  let (fields, b) ← irFieldsNew source n b
  let (methods, b) ← irMany .method (irMethodNew source n) n b
  if (← b.peek) = .programEnd then return (⟨imports, fields, methods⟩, b.nodes) else none

end

-- The same tree, built from the syntax tree instead of its linear form. `allocated` counts the addresses.

def AstLiteral.toIr (literal : AstLiteral) : IrLiteral :=
  match literalNodeType literal.value.type with
  | .intLiteral =>
    let token := intLiteralToken source literal.value
    ⟨literal.negation.isSome, .int, Roast.irIntLiteralFromAst token literal.negation.isSome, some token⟩
  | .boolLiteral =>
    ⟨literal.negation.isSome, .bool, BitVec.ofBool (literal.value.type = .keywordTrue) |>.setWidth 64, none⟩
  | _ =>
    ⟨literal.negation.isSome, .char,
      BitVec.ofNat 64 ((charLiteralValue (tokenGetString source literal.value)).getD '\x00').toNat, none⟩

def tokenString (token : Token) : String := String.ofList (tokenGetString source token)

mutual

def AstExpression.toIr : AstExpression → Nat → IrExpression × Nat
  | .binary left operator right, allocated =>
    let left := left.toIr allocated
    let right := right.toIr left.2
    (.binary ((irBinaryOperator operator.type).getD .or) left.1 right.1, right.2)
  | .not expression, allocated => let operand := expression.toIr allocated; (.not operand.1, operand.2)
  | .negate expression, allocated => let operand := expression.toIr allocated; (.negate operand.1, operand.2)
  | .len name, allocated => (.len (tokenString source name) 1, allocated)
  | .methodCall name arguments, allocated =>
    let arguments := arguments.toIr allocated
    (.methodCall (tokenString source name) arguments.1, arguments.2)
  | .literal literal, allocated => (.literal (literal.toIr source), allocated)
  | .scalar name, allocated => (.location (.scalar allocated (tokenString source name)), allocated + 1)
  | .element name index, allocated =>
    let index := index.toIr (allocated + 1)
    (.location (.element allocated (tokenString source name) index.1), index.2)

def AstArguments.toIr : AstArguments → Nat → IrArguments × Nat
  | .nil, allocated => (.nil, allocated)
  | .string string rest, allocated =>
    let rest := rest.toIr allocated
    (.string (tokenString source string) rest.1, rest.2)
  | .expression expression rest, allocated =>
    let argument := expression.toIr allocated
    let rest := rest.toIr argument.2
    (.expression argument.1 rest.1, rest.2)

end

def AstLocation.toIr : AstLocation → Nat → IrLocation × Nat
  | .scalar name, allocated => (.scalar allocated (tokenString source name), allocated + 1)
  | .element name index, allocated =>
    let index := index.toIr source (allocated + 1)
    (.element allocated (tokenString source name) index.1, index.2)

def AstCall.toIr (call : AstCall) (allocated : Nat) : (String × IrArguments) × Nat :=
  let arguments := call.arguments.toIr source allocated
  ((tokenString source call.identifier, arguments.1), arguments.2)

def AstAssignment.toIr : AstAssignment → Nat → IrAssignment × Nat
  | .assign location operator expression, allocated =>
    let location := location.toIr source allocated
    let expression := expression.toIr source location.2
    (⟨location.1, (irAssignOperator operator.type).getD .set, some expression.1⟩, expression.2)
  | .increment location operator, allocated =>
    let location := location.toIr source allocated
    (⟨location.1, (irAssignOperator operator.type).getD .set, none⟩, location.2)

def AstForUpdate.toIr : AstForUpdate → Nat → IrForUpdate × Nat
  | .methodCall call, allocated =>
    let call := call.toIr source allocated
    (.methodCall call.1.1 call.1.2, call.2)
  | .assignment update, allocated =>
    let update := update.toIr source allocated
    (.assignment update.1, update.2)

def listToIr {α β : Type} (toIr : α → Nat → β × Nat) : List α → Nat → List β × Nat
  | [], allocated => ([], allocated)
  | item :: rest, allocated =>
    let first := toIr item allocated
    let others := listToIr toIr rest first.2
    (first.1 :: others.1, others.2)

def AstInitializer.toIr : AstInitializer → IrInitializer
  | .scalar literal => ⟨false, [literal.toIr source]⟩
  | .array literals => ⟨true, literals.map (AstLiteral.toIr source)⟩

def AstLength.toIr (type : IrDataType) : AstLength → IrDataType × Int × Option IntLiteralToken
  | .none => (type, 1, Option.none)
  | .empty => (type.array, -1, Option.none)
  | .literal length =>
    (type.array, (Roast.irIntLiteralFromAst (intLiteralToken source length) false).toInt, some (intLiteralToken source length))

def AstDeclarator.toIr (constant : Bool) (type : IrDataType) (declarator : AstDeclarator) (allocated : Nat) :
    IrField × Nat :=
  let length := declarator.length.toIr source type
  (⟨allocated, length.1, constant, tokenString source declarator.identifier, length.2.1, length.2.2,
    declarator.initializer.map (AstInitializer.toIr source)⟩, allocated + 1)

def irDataType : TokenType → IrDataType
  | .keywordInt => .int
  | .keywordBool => .bool
  | _ => .void

def AstField.toIr (field : AstField) (allocated : Nat) : List IrField × Nat :=
  listToIr (AstDeclarator.toIr source field.constant (irDataType field.type.type)) field.declarators allocated

def fieldsToIr (fields : List AstField) (allocated : Nat) : List IrField × Nat :=
  let declared := listToIr (AstField.toIr source) fields allocated
  (declared.1.flatten, declared.2)

mutual

def AstStatement.toIr : AstStatement → Nat → IrStatement × Nat
  | .assignment child, allocated =>
    let child := child.toIr source allocated
    (.assignment child.1, child.2)
  | .methodCall call, allocated =>
    let call := call.toIr source allocated
    (.methodCall call.1.1 call.1.2, call.2)
  | .ifStatement condition ifBlock, allocated =>
    let condition := condition.toIr source allocated
    let ifBlock := ifBlock.toIr condition.2
    (.ifStatement condition.1 ifBlock.1, ifBlock.2)
  | .ifElseStatement condition ifBlock elseBlock, allocated =>
    let condition := condition.toIr source allocated
    let ifBlock := ifBlock.toIr condition.2
    let elseBlock := elseBlock.toIr ifBlock.2
    (.ifElseStatement condition.1 ifBlock.1 elseBlock.1, elseBlock.2)
  | .forStatement name initial condition update block, allocated =>
    let initial := initial.toIr source allocated
    let condition := condition.toIr source (initial.2 + 1)
    let update := update.toIr source condition.2
    let block := block.toIr update.2
    (.forStatement ⟨.scalar initial.2 (tokenString source name), .set, some initial.1⟩ condition.1 update.1 block.1, block.2)
  | .whileStatement condition block, allocated =>
    let condition := condition.toIr source allocated
    let block := block.toIr condition.2
    (.whileStatement condition.1 block.1, block.2)
  | .returnStatement none, allocated => (.returnStatement none, allocated)
  | .returnStatement (some expression), allocated =>
    let expression := expression.toIr source allocated
    (.returnStatement (some expression.1), expression.2)
  | .breakStatement, allocated => (.breakStatement, allocated)
  | .continueStatement, allocated => (.continueStatement, allocated)

def AstBlock.toIr : AstBlock → Nat → IrBlock × Nat
  | .mk fields statements, allocated =>
    let fields := fieldsToIr source fields allocated
    let statements := statements.toIr fields.2
    (.mk fields.1 (IrStatements.ofList statements.1), statements.2)

def AstStatements.toIr : AstStatements → Nat → List IrStatement × Nat
  | .nil, allocated => ([], allocated)
  | .cons statement rest, allocated =>
    let statement := statement.toIr allocated
    let rest := rest.toIr statement.2
    (statement.1 :: rest.1, rest.2)

end

def AstParameter.toIr (parameter : AstParameter) (allocated : Nat) : IrField × Nat :=
  (⟨allocated, irDataType parameter.type.type, false, tokenString source parameter.identifier, 1, none, none⟩,
    allocated + 1)

def AstMethod.toIr (method : AstMethod) (allocated : Nat) : IrMethod × Nat :=
  let parameters := listToIr (AstParameter.toIr source) method.parameters allocated
  let block := method.block.toIr source parameters.2
  (⟨false, irDataType method.type.type, tokenString source method.identifier, parameters.1, block.1⟩, block.2)

def AstProgram.toIr (program : AstProgram) : IrProgram :=
  let fields := fieldsToIr source program.fields 0
  let methods := listToIr (AstMethod.toIr source) program.methods fields.2
  ⟨program.imports.map fun name => ⟨true, .int, tokenString source name, [], .mk [] .nil⟩, fields.1, methods.1⟩

end

end Roast
