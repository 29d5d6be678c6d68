import Roast.Semantics.Ir

/-! The static checker, `semantics.c` with the scope tables of `semantics/symbol_table.c`.
It walks the program once and keeps going after an error. -/
namespace Roast

/-- `struct semantics`. A fields table and its parents are the suffix of the stack that starts at it.
`reports` collects the texts printed on the error stream; `lookups` is a ghost log of the `ir_field`
that `get_field_declaration` found for each `ir_location`. -/
structure Semantics where
  error : Bool
  reports : List String
  fieldsTableStack : List (List IrField)
  methodsTable : List IrMethod
  currentMethod : Option IrMethod
  loopDepth : Nat
  lookups : List (Nat × Nat)

/-- What an `analyze_*` function leaves behind: the node it updated in place, the type it returned
and the checker's state. -/
structure Checked (α : Type) where
  node : α
  type : IrDataType
  state : Semantics

namespace Semantics

def semanticError (s : Semantics) (message : String) : Semantics :=
  { s with error := true, reports := s.reports ++ [message] }

def errorIf (s : Semantics) (condition : Prop) [Decidable condition] (message : String) : Semantics :=
  if condition then s.semanticError message else s

/-- The ghost entry made when `field` is found for the location at `node`. -/
def logLookup (s : Semantics) (node : Nat) (field : IrField) : Semantics :=
  { s with lookups := s.lookups ++ [(node, field.node)] }

def pushScope (s : Semantics) (fieldsTable : List IrField) : Semantics :=
  { s with fieldsTableStack := fieldsTable :: s.fieldsTableStack }

def popScope (s : Semantics) : Semantics :=
  { s with fieldsTableStack := s.fieldsTableStack.tail }

/-- `fields_table_get` on the current scope without climbing to the parents. -/
def fieldsTableGetLocal (s : Semantics) (identifier : String) : Option IrField :=
  (s.fieldsTableStack.headD []).find? (fun field => field.identifier == identifier)

/-- `fields_table_get` on the current scope, climbing to the parents. -/
def fieldsTableGet (s : Semantics) (identifier : String) : Option IrField :=
  s.fieldsTableStack.findSome? (fun table => table.find? (fun field => field.identifier == identifier))

def fieldsTableAdd (s : Semantics) (field : IrField) : Semantics :=
  { s with fieldsTableStack := match s.fieldsTableStack with
      | [] => []
      | table :: parents => (table ++ [field]) :: parents }

def methodsTableGet (s : Semantics) (identifier : String) : Option IrMethod :=
  s.methodsTable.find? (fun method => method.identifier == identifier)

def declareMethod (s : Semantics) (method : IrMethod) : Semantics :=
  if (s.methodsTableGet method.identifier).isSome then
    s.semanticError ("Redeclaration of method '" ++ method.identifier ++ "'")
  else if (s.fieldsTableGetLocal method.identifier).isSome then
    s.semanticError ("Identifier '" ++ method.identifier ++ "' already declared as field")
  else { s with methodsTable := s.methodsTable ++ [method] }

/-- `global` in the source: the current scope has no parent. -/
def declareField (s : Semantics) (field : IrField) : Semantics :=
  if (s.fieldsTableGetLocal field.identifier).isSome then
    s.semanticError ("Redeclaration of field '" ++ field.identifier ++ "'")
  else if s.fieldsTableStack.length = 1 ∧ (s.methodsTableGet field.identifier).isSome then
    s.semanticError ("Identifier '" ++ field.identifier ++ "' already declared as method")
  else s.fieldsTableAdd field

def getMethodDeclaration (s : Semantics) (identifier : String) : Option IrMethod × Semantics :=
  if (s.fieldsTableGet identifier).isSome then
    (none, s.semanticError ("Identifier '" ++ identifier ++ "' is not a method"))
  else
    let method := s.methodsTableGet identifier
    (method, s.errorIf (method = none) ("Undeclared method '" ++ identifier ++ "'"))

def getFieldDeclaration (s : Semantics) (identifier : String) : Option IrField × Semantics :=
  let field := s.fieldsTableGet identifier
  (field, s.errorIf (field = none) ("Undeclared field '" ++ identifier ++ "'"))

end Semantics

open Semantics

def IrLiteralType.dataType : IrLiteralType → IrDataType
  | .int | .char => .int
  | .bool => .bool

def analyzeLiteral (s : Semantics) (literal : IrLiteral) : IrDataType × Semantics :=
  (literal.type.dataType,
    s.errorIf (literal.type = .int ∧ literal.value = overflowMarker) "Overflow in int literal")

def IrBinaryOperator.takesInts : IrBinaryOperator → Bool
  | .add | .sub | .mul | .div | .mod | .less | .lessEqual | .greaterEqual | .greater => true
  | _ => false

def IrBinaryOperator.takesBools : IrBinaryOperator → Bool
  | .or | .and => true
  | _ => false

def IrBinaryOperator.resultType : IrBinaryOperator → IrDataType
  | .add | .sub | .mul | .div | .mod => .int
  | _ => .bool

def checkBinaryOperands (s : Semantics) (operator : IrBinaryOperator) (leftType rightType : IrDataType) :
    Semantics :=
  if operator.takesInts then
    s.errorIf (leftType ≠ .int ∨ rightType ≠ .int)
      "arithmetic operators can only operate on expressions of type int"
  else if operator.takesBools then
    s.errorIf (leftType ≠ .bool ∨ rightType ≠ .bool)
      "boolean operators can only operate on expressions of type bool"
  else
    (s.errorIf (leftType.isArray ∨ rightType.isArray)
        "Cannot perform operations on array type").errorIf (leftType ≠ rightType)
      "Mismatching types in binary expression"

def analyzeMethodCallWith (s : Semantics) (identifier : String) (arguments : IrArguments)
    (imported : Semantics → IrArguments × Semantics)
    (regular : List IrField → Semantics → IrArguments × Semantics) : Checked IrArguments :=
  let found := s.getMethodDeclaration identifier
  match found.1 with
  | none => ⟨arguments, .void, found.2⟩
  | some method =>
    if method.imported then
      let result := imported found.2
      ⟨result.1, method.returnType, result.2⟩
    else if method.arguments.length ≠ arguments.length then
      ⟨arguments, method.returnType, found.2.semanticError
        ("Incorrect number of arguments passed into method call '" ++ identifier ++ "'")⟩
    else
      let result := regular method.arguments found.2
      ⟨result.1, method.returnType, result.2⟩

mutual

def analyzeExpression (s : Semantics) : IrExpression → Checked IrExpression
  | .len identifier length =>
    let found := s.getFieldDeclaration identifier
    match found.1 with
    | none => ⟨.len identifier length, .int, found.2⟩
    | some field =>
      if field.type.isArray then ⟨.len identifier field.arrayLength, .int, found.2⟩
      else ⟨.len identifier length, .int,
        found.2.semanticError ("Cannot take len of non-array field '" ++ identifier ++ "'")⟩
  | .negate expression =>
    let result := analyzeExpression s expression
    ⟨.negate result.node, .int, result.state.errorIf (result.type ≠ .int)
      "Cannot negate an expression that is not of type int"⟩
  | .not expression =>
    let result := analyzeExpression s expression
    ⟨.not result.node, .bool, result.state.errorIf (result.type ≠ .bool)
      "Cannot perform boolean operation on an expression that is not of type bool"⟩
  | .literal literal =>
    let result := analyzeLiteral s literal
    ⟨.literal literal, result.1, result.2⟩
  | .location location =>
    let result := analyzeLocation s location
    ⟨.location result.1.node, result.1.type, result.1.state⟩
  | .methodCall identifier arguments =>
    let result := analyzeMethodCallWith s identifier arguments
      (fun s => analyzeImportedMethodCallArguments s arguments)
      (fun fields s => analyzeMethodCallArguments s fields arguments)
    ⟨.methodCall identifier result.node, result.type, result.state.errorIf (result.type = .void)
      "method call does not return a value"⟩
  | .binary operator left right =>
    let leftResult := analyzeExpression s left
    let rightResult := analyzeExpression leftResult.state right
    ⟨.binary operator leftResult.node rightResult.node, operator.resultType,
      checkBinaryOperands rightResult.state operator leftResult.type rightResult.type⟩

/-- The second component is the out parameter `constant`. -/
def analyzeLocation (s : Semantics) : IrLocation → Checked IrLocation × Bool
  | .scalar node identifier =>
    let found := s.getFieldDeclaration identifier
    match found.1 with
    | none => (⟨.scalar node identifier, .void, found.2⟩, false)
    | some field =>
      (⟨.scalar node identifier, field.type, found.2.logLookup node field⟩, field.constant)
  | .element node identifier index =>
    let found := s.getFieldDeclaration identifier
    match found.1 with
    | none => (⟨.element node identifier index, .void, found.2⟩, false)
    | some field =>
      let s := (found.2.logLookup node field).errorIf (field.type.isArray = false)
        ("Cannot index into a non-array field '" ++ identifier ++ "'")
      let result := analyzeExpression s index
      (⟨.element node identifier result.node, field.type.element,
        result.state.errorIf (result.type ≠ .int) "Indexing expression must be of type int"⟩,
        field.constant)

def analyzeImportedMethodCallArguments (s : Semantics) : IrArguments → IrArguments × Semantics
  | .nil => (.nil, s)
  | .string string rest =>
    let result := analyzeImportedMethodCallArguments s rest
    (.string string result.1, result.2)
  | .expression expression rest =>
    let first := analyzeExpression s expression
    let result := analyzeImportedMethodCallArguments first.state rest
    (.expression first.node result.1, result.2)

def analyzeMethodCallArguments (s : Semantics) (fields : List IrField) :
    IrArguments → IrArguments × Semantics
  | .nil => (.nil, s)
  | .string string rest =>
    let s := s.semanticError "String not allowed in non-imported methods"
    let result := analyzeMethodCallArguments s fields.tail rest
    (.string string result.1, result.2)
  | .expression expression rest =>
    let first := analyzeExpression s expression
    let s := first.state.errorIf (fields.head?.map IrField.type ≠ some first.type)
      "Incorrect type passed into method call"
    let result := analyzeMethodCallArguments s fields.tail rest
    (.expression first.node result.1, result.2)

end

def analyzeMethodCall (s : Semantics) (identifier : String) (arguments : IrArguments) :
    Checked IrArguments :=
  analyzeMethodCallWith s identifier arguments
    (fun s => analyzeImportedMethodCallArguments s arguments)
    (fun fields s => analyzeMethodCallArguments s fields arguments)

def analyzeInitializerLiteral (accumulated : IrDataType × Semantics) (literal : IrLiteral) :
    IrDataType × Semantics :=
  let result := analyzeLiteral accumulated.2 literal
  if accumulated.1 = .void then result
  else (accumulated.1, result.2.errorIf (result.1 ≠ accumulated.1)
    "Inconsistent types in array initializer")

def analyzeInitializer (s : Semantics) (initializer : IrInitializer) : IrDataType × Semantics :=
  let result := initializer.literals.foldl analyzeInitializerLiteral (.void, s)
  (if initializer.array then result.1.array else result.1, result.2)

/-- The `array_length` that `analyze_field` leaves in a field. -/
def IrField.analyzed (field : IrField) : IrField :=
  match field.initializer with
  | some initializer => { field with arrayLength := initializer.literals.length }
  | none => field

/-- The table keeps a pointer to the field, so later lookups see the length set here. -/
def analyzeField (s : Semantics) (field : IrField) : Semantics :=
  let s := s.declareField field.analyzed
  match field.initializer with
  | some initializer =>
    let result := analyzeInitializer s initializer
    let s := result.2.errorIf (result.1 ≠ field.type) "Initializer type does not match field type"
    s.errorIf (field.type.isArray ∧ initializer.array ∧ field.arrayLength ≠ -1)
      "Array initializer cannot be provided when length is declared"
  | none =>
    let s :=
      if field.type.isArray ∧ field.arrayLength = -1 then
        s.semanticError "Array fields without initializers must have a declared length"
      else s.errorIf (field.type.isArray ∧ field.arrayLength = 0) "Array length must be greater than 0"
    s.errorIf field.constant "Fields declared constant must have an initializer"

def analyzeFields (s : Semantics) (fields : List IrField) : Semantics :=
  fields.foldl analyzeField s

def analyzeAssignment (s : Semantics) (assignment : IrAssignment) : IrAssignment × Semantics :=
  let location := analyzeLocation s assignment.location
  let type := location.1.type
  let s := location.1.state.errorIf location.2
    ("Cannot assign to constant field '" ++ assignment.location.identifier ++ "'")
  let s := s.errorIf type.isArray
    ("Cannot assign to array typed field '" ++ assignment.location.identifier ++ "'")
  let s := s.errorIf (assignment.assignOperator ≠ .set ∧ type ≠ .int)
    "Arithmetic assignment cannot be applied to field that is not of type int"
  match assignment.expression with
  | none => ({ assignment with location := location.1.node }, s)
  | some expression =>
    let result := analyzeExpression s expression
    ({ assignment with location := location.1.node, expression := some result.node },
      result.state.errorIf (result.type ≠ type) "Expression is not the same type as field")

def analyzeForUpdate (s : Semantics) : IrForUpdate → IrForUpdate × Semantics
  | .assignment assignment =>
    let result := analyzeAssignment s assignment
    (.assignment result.1, result.2)
  | .methodCall identifier arguments =>
    let result := analyzeMethodCall s identifier arguments
    (.methodCall identifier result.node, result.state)

def enterLoop (s : Semantics) : Semantics := { s with loopDepth := s.loopDepth + 1 }

def leaveLoop (s : Semantics) : Semantics := { s with loopDepth := s.loopDepth - 1 }

def analyzeReturnStatement (s : Semantics) (expression : Option IrExpression) :
    Option IrExpression × Semantics :=
  match expression with
  | none => (none, s.errorIf (s.currentMethod.map IrMethod.returnType ≠ some .void)
      "return expression does not match method return type")
  | some expression =>
    let result := analyzeExpression s expression
    (some result.node,
      result.state.errorIf (result.state.currentMethod.map IrMethod.returnType ≠ some result.type)
        "return expression does not match method return type")

mutual

def analyzeStatement (s : Semantics) : IrStatement → IrStatement × Semantics
  | .assignment assignment =>
    let result := analyzeAssignment s assignment
    (.assignment result.1, result.2)
  | .methodCall identifier arguments =>
    let result := analyzeMethodCall s identifier arguments
    (.methodCall identifier result.node, result.state)
  | .ifStatement condition ifBlock =>
    let condition := analyzeExpression s condition
    let s := condition.state.errorIf (condition.type ≠ .bool)
      "Condition expression in if statement must be of type bool"
    let block := analyzeBlock s [] ifBlock
    (.ifStatement condition.node block.1, block.2)
  | .ifElseStatement condition ifBlock elseBlock =>
    let condition := analyzeExpression s condition
    let s := condition.state.errorIf (condition.type ≠ .bool)
      "Condition expression in if statement must be of type bool"
    let ifResult := analyzeBlock s [] ifBlock
    let elseResult := analyzeBlock ifResult.2 [] elseBlock
    (.ifElseStatement condition.node ifResult.1 elseResult.1, elseResult.2)
  | .forStatement initial condition update block =>
    let initial := analyzeAssignment (enterLoop s) initial
    let condition := analyzeExpression initial.2 condition
    let s := condition.state.errorIf (condition.type ≠ .bool)
      "Condition expression in for statement must be of type bool"
    let update := analyzeForUpdate s update
    let block := analyzeBlock update.2 [] block
    (.forStatement initial.1 condition.node update.1 block.1, leaveLoop block.2)
  | .whileStatement condition block =>
    let condition := analyzeExpression (enterLoop s) condition
    let s := condition.state.errorIf (condition.type ≠ .bool)
      "Condition expression in while statement must be of type bool"
    let block := analyzeBlock s [] block
    (.whileStatement condition.node block.1, leaveLoop block.2)
  | .returnStatement expression =>
    let result := analyzeReturnStatement s expression
    (.returnStatement result.1, result.2)
  | .continueStatement =>
    (.continueStatement, s.errorIf (s.loopDepth = 0) "continue statement must be inside a loop")
  | .breakStatement =>
    (.breakStatement, s.errorIf (s.loopDepth = 0) "break statement must be inside a loop")

/-- `initialFields` are the method's arguments, empty for the blocks of statements. -/
def analyzeBlock (s : Semantics) (initialFields : List IrField) : IrBlock → IrBlock × Semantics
  | .mk fields statements =>
    let s := analyzeFields (analyzeFields (s.pushScope []) initialFields) fields
    let result := analyzeStatements s statements
    (.mk (fields.map IrField.analyzed) result.1, result.2.popScope)

def analyzeStatements (s : Semantics) : IrStatements → IrStatements × Semantics
  | .nil => (.nil, s)
  | .cons statement rest =>
    let first := analyzeStatement s statement
    let result := analyzeStatements first.2 rest
    (.cons first.1 result.1, result.2)

end

def analyzeMethod (s : Semantics) (method : IrMethod) : IrMethod × Semantics :=
  let s := { s.declareMethod method with currentMethod := some method }
  let result := analyzeBlock s method.arguments method.block
  ({ method with arguments := method.arguments.map IrField.analyzed, block := result.1 }, result.2)

def analyzeMethods (s : Semantics) : List IrMethod → List IrMethod × Semantics
  | [] => ([], s)
  | method :: rest =>
    let first := analyzeMethod s method
    let result := analyzeMethods first.2 rest
    (first.1 :: result.1, result.2)

def checkMain (s : Semantics) : Semantics :=
  match s.methodsTableGet "main" with
  | none => s.semanticError "Program must have a definition for main"
  | some method =>
    if method.imported then s.semanticError "main method cannot be imported"
    else if method.returnType ≠ .void then s.semanticError "main method must return void"
    else s.errorIf (method.arguments.length > 0) "main method must have no arguments"

def analyzeProgram (s : Semantics) (program : IrProgram) : IrProgram × Semantics :=
  let s := program.imports.foldl declareMethod (s.pushScope [])
  let s := analyzeFields s program.fields
  let methods := analyzeMethods s program.methods
  ({ program with fields := program.fields.map IrField.analyzed, methods := methods.1 },
    (checkMain methods.2).popScope)

def semanticsNew : Semantics :=
  { error := false, reports := [], fieldsTableStack := [], methodsTable := [], currentMethod := none,
    loopDepth := 0, lookups := [] }

/-- `semantics_analyze` from the point where the IR has been built: the result code and the analyzed IR. -/
def semanticsAnalyze (program : IrProgram) : Int × IrProgram :=
  let result := analyzeProgram semanticsNew program
  (if result.2.error then -1 else 0, result.1)

/-- The checker accepts `program` and hands `analyzed` on to the generator. -/
def Accepts (program analyzed : IrProgram) : Prop :=
  semanticsAnalyze program = (0, analyzed)

end Roast
