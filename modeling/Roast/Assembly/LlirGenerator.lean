import Roast.Assembly.Llir

/-! The lowering of the analyzed IR, `llir_generator.c` with the scope stack of `assembly/symbol_table.c`.
A failed assertion, a missing symbol or a loop that does not end is recorded in `failed` and leaves the
whole program without a result. -/
namespace Roast

/-- `struct llir_generator`. The symbol table and the stacks have their top first. Predecessors are
collected as `(block, predecessor)` pairs and put into the blocks when the method is complete. `lookups`
is a ghost log of the field that `symbol_table_get` found for each `ir_location`; `exits` is a ghost log of
the blocks that `break` and `continue` jump to, each with the one of the innermost enclosing loop;
`terminated` is a ghost log of the blocks whose terminal was set, over all methods; `writes` is a ghost log
of the assignments that store what a source assignment computes. -/
structure LlirGenerator where
  failed : Bool
  temporaryCounter : Nat
  blockCounter : Nat
  symbolTable : List (List (String × LlirField))
  breakBlocks : List Nat
  continueBlocks : List Nat
  blocks : List LlirBlock
  currentBlock : LlirBlock
  predecessors : List (Nat × Nat)
  lookups : List (Nat × LlirField)
  exits : List (Option Nat × Nat)
  terminated : List Nat
  writes : List LlirAssignment

namespace LlirGenerator

def assert (g : LlirGenerator) (condition : Prop) [Decidable condition] : LlirGenerator :=
  if condition then g else { g with failed := true }

def symbolTableSet (g : LlirGenerator) (identifier : String) (field : LlirField) : LlirGenerator :=
  { g with symbolTable := match g.symbolTable with
      | [] => []
      | table :: tables => ((identifier, field) :: table) :: tables }

def symbolTableGet (g : LlirGenerator) (identifier : String) : Option LlirField :=
  g.symbolTable.findSome? (fun table => table.lookup identifier)

def symbolTablePushScope (g : LlirGenerator) : LlirGenerator :=
  { g with symbolTable := [] :: g.symbolTable }

def symbolTableGetScopeLevel (g : LlirGenerator) : Nat :=
  g.symbolTable.length - 1

def symbolTablePopScope (g : LlirGenerator) : LlirGenerator :=
  { g.assert (g.symbolTable ≠ []) with symbolTable := g.symbolTable.tail }

def addAssignment (g : LlirGenerator) (assignment : LlirAssignment) : LlirGenerator :=
  { g with currentBlock :=
      { g.currentBlock with assignments := g.currentBlock.assignments ++ [assignment] } }

def addField (g : LlirGenerator) (field : LlirField) : LlirGenerator :=
  { g with currentBlock := { g.currentBlock with fields := g.currentBlock.fields ++ [field] } }

def addMove (g : LlirGenerator) (source : LlirOperand) (destination : LlirField) : LlirGenerator :=
  g.addAssignment (.unary .move source destination)

/-- `llir_block_set_terminal` on the current block. -/
def setTerminal (g : LlirGenerator) (terminal : LlirTerminal) : LlirGenerator :=
  { g with
    currentBlock := { g.currentBlock with terminal := terminal }
    predecessors := g.predecessors ++ terminal.successors.map fun block => (block, g.currentBlock.id)
    terminated := g.terminated ++ [g.currentBlock.id] }

def newTemporary (g : LlirGenerator) (character : Char) : LlirField × LlirGenerator :=
  let identifier := character.toString ++ toString g.temporaryCounter
  let field := llirFieldNew identifier 0 false 1 none
  (field, ({ g with temporaryCounter := g.temporaryCounter + 1 }.addField field).symbolTableSet identifier field)

def newLocalTemporary (g : LlirGenerator) : LlirField × LlirGenerator := g.newTemporary '$'

def newNonLocalTemporary (g : LlirGenerator) : LlirField × LlirGenerator := g.newTemporary '#'

def newBlock (g : LlirGenerator) : Nat × LlirGenerator :=
  (g.blockCounter, { g with blockCounter := g.blockCounter + 1 })

/-- The block that becomes current is a fresh one: it was made by `newBlock` and has no content yet. -/
def nextBlock (g : LlirGenerator) (block : Nat) : LlirGenerator :=
  { g with blocks := g.blocks ++ [g.currentBlock], currentBlock := llirBlockNew block }

/-- `llir_block_set_terminal` with a jump, and `next_block`. -/
def jumpTo (g : LlirGenerator) (target next : Nat) : LlirGenerator :=
  (g.setTerminal (.jump target)).nextBlock next

/-- `llir_block_set_terminal` with a branch, and `next_block`: code goes on in the true block. -/
def branchTo (g : LlirGenerator) (branch : LlirBranch) : LlirGenerator :=
  (g.setTerminal (.branch branch)).nextBlock branch.trueBlock

/-- The two blocks of a branch are made before it is set; the false block is returned. -/
def branchNew (g : LlirGenerator) (type : LlirBranchType) (unsignedComparison : Bool)
    (left right : LlirOperand) : Nat × LlirGenerator :=
  let (trueBlock, g) := g.newBlock
  let (falseBlock, g) := g.newBlock
  (falseBlock, g.branchTo ⟨type, unsignedComparison, left, right, trueBlock, falseBlock⟩)

def pushLoop (g : LlirGenerator) (breakBlock continueBlock : Nat) : LlirGenerator :=
  { g with breakBlocks := breakBlock :: g.breakBlocks, continueBlocks := continueBlock :: g.continueBlocks }

def getBreakBlock (g : LlirGenerator) : Nat × LlirGenerator :=
  (g.breakBlocks.headD 0, g.assert (g.breakBlocks ≠ []))

def getContinueBlock (g : LlirGenerator) : Nat × LlirGenerator :=
  (g.continueBlocks.headD 0, g.assert (g.continueBlocks ≠ []))

def popLoop (g : LlirGenerator) : LlirGenerator :=
  { g.assert (g.breakBlocks ≠ [] ∧ g.continueBlocks ≠ []) with
    breakBlocks := g.breakBlocks.tail, continueBlocks := g.continueBlocks.tail }

end LlirGenerator

open LlirGenerator

def literalInRange (literal : IrLiteral) : Prop := literal.value ≤ 1 <<< 63

instance (literal : IrLiteral) : Decidable (literalInRange literal) :=
  inferInstanceAs (Decidable (literal.value ≤ 1 <<< 63))

def literalToInt64 (literal : IrLiteral) : Word :=
  if literal.negate ∧ literal.value ≠ 1 <<< 63 then literal.value * -1 else literal.value

def generateBoundsCheck (g : LlirGenerator) (index : LlirOperand) (length : Word) : LlirGenerator :=
  let (falseBlock, g) := g.branchNew .less true index (.literal length)
  let g := g.setTerminal (.shitYourself (-1))
  g.nextBlock falseBlock

/-- A field that stands in for a missing symbol once the generator has failed. -/
def missingField : LlirField :=
  { identifier := "", isArray := false, valueCount := 0, values := [], declaration := none }

/-- The `symbol_table_get` of `generate_location` and `generate_assignment`, with its assertion. -/
def LlirGenerator.lookup (g : LlirGenerator) (location : IrLocation) : LlirField × LlirGenerator :=
  match g.symbolTableGet location.identifier with
  | some field => (field, { g with lookups := g.lookups ++ [(location.node, field)] })
  | none => (missingField, { g with failed := true })

def generateLiteral (g : LlirGenerator) (literal : IrLiteral) : LlirOperand × LlirGenerator :=
  let g := g.assert (literalInRange literal)
  let (destination, g) := g.newLocalTemporary
  (.field destination, g.addMove (.literal (literalToInt64 literal)) destination)

def generateLenExpression (g : LlirGenerator) (length : Int) : LlirOperand × LlirGenerator :=
  let (destination, g) := g.newLocalTemporary
  (.field destination, g.addMove (.literal (BitVec.ofInt 64 length)) destination)

def irOperatorToAssignmentType : IrBinaryOperator → LlirBinaryType
  | .equal => .equal
  | .notEqual => .notEqual
  | .less => .less
  | .lessEqual => .lessEqual
  | .greaterEqual => .greaterEqual
  | .greater => .greater
  | .add => .add
  | .sub => .subtract
  | .mul => .multiply
  | .div => .divide
  | .mod => .modulo
  | .or | .and => .add

mutual

def generateExpression (g : LlirGenerator) : IrExpression → LlirOperand × LlirGenerator
  | .binary operator left right =>
    if operator = .or ∨ operator = .and then
      -- generate_short_circuit
      let (destination, g) := g.newNonLocalTemporary
      let (leftOperand, g) := generateExpression g left
      let g := g.addMove leftOperand destination
      let comparison := if operator = .or then .equal else .notEqual
      let (falseBlock, g) := g.branchNew comparison false leftOperand (.literal 1)
      let (rightOperand, g) := generateExpression g right
      let g := g.addMove rightOperand destination
      (.field destination, g.jumpTo falseBlock falseBlock)
    else
      let (leftOperand, g) := generateExpression g left
      let (rightOperand, g) := generateExpression g right
      let (destination, g) := g.newLocalTemporary
      (.field destination, g.addAssignment
        (.binary (irOperatorToAssignmentType operator) leftOperand rightOperand destination))
  | .not expression =>
    let (source, g) := generateExpression g expression
    let (destination, g) := g.newLocalTemporary
    (.field destination, g.addAssignment (.unary .not source destination))
  | .negate expression =>
    let (source, g) := generateExpression g expression
    let (destination, g) := g.newLocalTemporary
    (.field destination, g.addAssignment (.unary .negate source destination))
  | .len _ length => generateLenExpression g length
  | .methodCall identifier arguments =>
    let (destination, g) := g.newLocalTemporary
    let (operands, g) := generateArguments g arguments
    (.field destination, g.addAssignment (.methodCall identifier operands destination))
  | .literal literal => generateLiteral g literal
  | .location location => generateLocation g location

def generateLocation (g : LlirGenerator) : IrLocation → LlirOperand × LlirGenerator
  | .scalar node identifier =>
    let (field, g) := g.lookup (.scalar node identifier)
    let (destination, g) := g.newLocalTemporary
    (.field destination, g.addMove (.field field) destination)
  | .element node identifier index =>
    let (field, g) := g.lookup (.element node identifier index)
    let (destination, g) := g.newLocalTemporary
    let (indexOperand, g) := generateExpression g index
    (.field destination, g.addAssignment (.arrayAccess indexOperand field destination false))

def generateArguments (g : LlirGenerator) : IrArguments → List LlirOperand × LlirGenerator
  | .nil => ([], g)
  | .string string rest =>
    let (operands, g) := generateArguments g rest
    (.string string :: operands, g)
  | .expression expression rest =>
    let (operand, g) := generateExpression g expression
    let (operands, g) := generateArguments g rest
    (operand :: operands, g)

end

def generateMethodCall (g : LlirGenerator) (identifier : String) (arguments : IrArguments) :
    LlirOperand × LlirGenerator :=
  let (destination, g) := g.newLocalTemporary
  let (operands, g) := generateArguments g arguments
  (.field destination, g.addAssignment (.methodCall identifier operands destination))

def assignmentType : IrAssignOperator → LlirBinaryType
  | .add | .increment => .add
  | .sub | .decrement => .subtract
  | .mul => .multiply
  | .div => .divide
  | .mod => .modulo
  | .set => .add

/-- The right side of an assignment; `++` and `--` use the literal 1. -/
def generateSource (g : LlirGenerator) : Option IrExpression → LlirOperand × LlirGenerator
  | none => (.literal 1, g)
  | some expression => generateExpression g expression

/-- The index of the assigned element, evaluated once and checked; `none` for a scalar. -/
def generateAssignmentIndex (g : LlirGenerator) (field : LlirField) :
    IrLocation → Option LlirOperand × LlirGenerator
  | .scalar _ _ => (none, g)
  | .element _ _ indexExpression =>
    let (index, g) := generateExpression g indexExpression
    (some index, generateBoundsCheck g index (BitVec.ofInt 64 field.valueCount))

def LlirGenerator.addRead (g : LlirGenerator) (field : LlirField) (destination : LlirField) :
    Option LlirOperand → LlirGenerator
  | none => g.addMove (.field field) destination
  | some index => g.addAssignment (.arrayAccess index field destination true)

def LlirGenerator.addWrite (g : LlirGenerator) (field : LlirField) (source : LlirOperand)
    (index : Option LlirOperand) : LlirGenerator :=
  let assignment := match index with
    | none => .unary .move source field
    | some index => .arrayUpdate index source field
  { g.addAssignment assignment with writes := g.writes ++ [assignment] }

def generateAssignmentWrite (g : LlirGenerator) (assignOperator : IrAssignOperator) (field : LlirField)
    (index : Option LlirOperand) (source : LlirOperand) : LlirGenerator :=
  if assignOperator = .set then g.addWrite field source index
  else
    let (leftDestination, g) := g.newLocalTemporary
    let g := g.addRead field leftDestination index
    let (binaryDestination, g) := g.newLocalTemporary
    let g := g.addAssignment
      (.binary (assignmentType assignOperator) (.field leftDestination) source binaryDestination)
    g.addWrite field (.field binaryDestination) index

def generateAssignment (g : LlirGenerator) (assignment : IrAssignment) : LlirGenerator :=
  let (field, g) := g.lookup assignment.location
  let (index, g) := generateAssignmentIndex g field assignment.location
  let (source, g) := generateSource g assignment.expression
  generateAssignmentWrite g assignment.assignOperator field index source

def generateForUpdate (g : LlirGenerator) : IrForUpdate → LlirGenerator
  | .assignment assignment => generateAssignment g assignment
  | .methodCall identifier arguments => (generateMethodCall g identifier arguments).2

/-- `get_field_initializer`: the literals overwrite the first values. -/
def getFieldInitializer (initializer : Option IrInitializer) (values : List Word) : List Word :=
  match initializer with
  | none => values
  | some initializer => initializer.literals.map literalToInt64 ++ values.drop initializer.literals.length

/-- The assertions of `get_field_initializer`, and that it writes inside the values array. -/
def InitializerFits (initializer : Option IrInitializer) (values : List Word) : Prop :=
  ∀ i ∈ initializer, i.literals.length ≤ values.length ∧ ∀ literal ∈ i.literals, literalInRange literal

instance (initializer : Option IrInitializer) (values : List Word) :
    Decidable (InitializerFits initializer values) :=
  inferInstanceAs (Decidable (∀ i ∈ initializer,
    i.literals.length ≤ values.length ∧ ∀ literal ∈ i.literals, literalInRange literal))

def generateField (g : LlirGenerator) (irField : IrField) : LlirField × LlirGenerator :=
  let empty := llirFieldNew irField.identifier g.symbolTableGetScopeLevel irField.type.isArray
    irField.arrayLength (some irField)
  let g := g.assert (InitializerFits irField.initializer empty.values)
  let field := { empty with values := getFieldInitializer irField.initializer empty.values }
  (field, g.symbolTableSet irField.identifier field)

/-- The assignments of the loop of `generate_field_initialization`. -/
def arrayInitialization (field : LlirField) : List LlirAssignment :=
  (List.range field.valueCount.toNat).map fun i =>
    .arrayUpdate (.literal (BitVec.ofNat 64 i)) (.literal (field.values.getD i 0)) field

/-- The loop over a 32-bit counter does not end when the array has `2 ^ 32` elements or more. -/
def generateFieldInitialization (g : LlirGenerator) (field : LlirField) : LlirGenerator :=
  if field.isArray then
    (arrayInitialization field).foldl addAssignment (g.assert (field.valueCount < 2 ^ 32))
  else g.addMove (.literal (field.values.headD 0)) field

/-- One turn of the field loop of `generate_block`. -/
def generateBlockField (g : LlirGenerator) (irField : IrField) : LlirGenerator :=
  let (field, g) := generateField g irField
  generateFieldInitialization (g.addField field) field

def generateReturnValue (g : LlirGenerator) : Option IrExpression → LlirOperand × LlirGenerator
  | none => (.literal 0, g)
  | some expression => generateExpression g expression

def generateReturnStatement (g : LlirGenerator) (expression : Option IrExpression) : LlirGenerator :=
  let (returnValue, g) := generateReturnValue g expression
  let g := g.setTerminal (.llirReturn returnValue)
  let (block, g) := g.newBlock
  g.nextBlock block

/-- The ghost parameter `loop` holds the end block and the continue block of the enclosing loop. -/
def generateBreakStatement (g : LlirGenerator) (loop : Option (Nat × Nat)) : LlirGenerator :=
  let (target, g) := g.getBreakBlock
  let g := { g with exits := g.exits ++ [(loop.map Prod.fst, target)] }
  let g := g.setTerminal (.jump target)
  let (block, g) := g.newBlock
  g.nextBlock block

def generateContinueStatement (g : LlirGenerator) (loop : Option (Nat × Nat)) : LlirGenerator :=
  let (target, g) := g.getContinueBlock
  let g := { g with exits := g.exits ++ [(loop.map Prod.snd, target)] }
  let g := g.setTerminal (.jump target)
  let (block, g) := g.newBlock
  g.nextBlock block

mutual

def generateStatement (g : LlirGenerator) (loop : Option (Nat × Nat)) : IrStatement → LlirGenerator
  | .assignment assignment => generateAssignment g assignment
  | .methodCall identifier arguments => (generateMethodCall g identifier arguments).2
  | .ifStatement condition ifBlock =>
    let (operand, g) := generateExpression g condition
    let (falseBlock, g) := g.branchNew .equal false operand (.literal 0)
    let g := generateBlock g loop true ifBlock
    g.jumpTo falseBlock falseBlock
  | .ifElseStatement condition ifBlock elseBlock =>
    let (operand, g) := generateExpression g condition
    let (falseBlock, g) := g.branchNew .equal false operand (.literal 0)
    let g := generateBlock g loop true ifBlock
    let (endBlock, g) := g.newBlock
    let g := g.jumpTo endBlock falseBlock
    let g := generateBlock g loop true elseBlock
    g.jumpTo endBlock endBlock
  | .forStatement initial condition update block =>
    let g := generateAssignment g initial
    let (conditionBlock, g) := g.newBlock
    let (loopBlock, g) := g.newBlock
    let (updateBlock, g) := g.newBlock
    let (endBlock, g) := g.newBlock
    let g := g.pushLoop endBlock updateBlock
    let g := g.jumpTo conditionBlock conditionBlock
    let (operand, g) := generateExpression g condition
    let g := g.branchTo ⟨.equal, false, operand, .literal 0, loopBlock, endBlock⟩
    let g := generateBlock g (some (endBlock, updateBlock)) true block
    let g := g.jumpTo updateBlock updateBlock
    let g := generateForUpdate g update
    let g := g.jumpTo conditionBlock endBlock
    g.popLoop
  | .whileStatement condition block =>
    let (conditionBlock, g) := g.newBlock
    let (loopBlock, g) := g.newBlock
    let (endBlock, g) := g.newBlock
    let g := g.pushLoop endBlock conditionBlock
    let g := g.jumpTo conditionBlock conditionBlock
    let (operand, g) := generateExpression g condition
    let g := g.branchTo ⟨.equal, false, operand, .literal 0, loopBlock, endBlock⟩
    let g := generateBlock g (some (endBlock, conditionBlock)) true block
    let g := g.jumpTo conditionBlock endBlock
    g.popLoop
  | .returnStatement expression => generateReturnStatement g expression
  | .breakStatement => generateBreakStatement g loop
  | .continueStatement => generateContinueStatement g loop

def generateBlock (g : LlirGenerator) (loop : Option (Nat × Nat)) (newScope : Bool) : IrBlock → LlirGenerator
  | .mk fields statements =>
    let g := if newScope then g.symbolTablePushScope else g
    let g := generateStatements (fields.foldl generateBlockField g) loop statements
    if newScope then g.symbolTablePopScope else g

def generateStatements (g : LlirGenerator) (loop : Option (Nat × Nat)) : IrStatements → LlirGenerator
  | .nil => g
  | .cons statement rest => generateStatements (generateStatement g loop statement) loop rest

end

def generateMethodArguments (g : LlirGenerator) : List IrField → List LlirField × LlirGenerator
  | [] => ([], g)
  | irField :: rest =>
    let (field, g) := generateField g irField
    let (fields, g) := generateMethodArguments g rest
    (field :: fields, g)

def LlirBlock.withPredecessors (block : LlirBlock) (predecessors : List (Nat × Nat)) : LlirBlock :=
  { block with predecessors := (predecessors.filter fun pair => pair.1 == block.id).map Prod.snd }

/-- The end of `generate_method`: what happens when control falls off the end. -/
def methodEnd (method : IrMethod) : LlirTerminal :=
  if method.returnType = .void then .llirReturn (.literal 0) else .shitYourself (-2)

def generateMethod (g : LlirGenerator) (method : IrMethod) : LlirMethod × LlirGenerator :=
  let g := g.symbolTablePushScope
  let (arguments, g) := generateMethodArguments g method.arguments
  let (block, g) := g.newBlock
  let g := { g with blocks := [], currentBlock := llirBlockNew block, predecessors := [] }
  let g := generateBlock g none false method.block
  let g := g.setTerminal (methodEnd method)
  let blocks := (g.blocks ++ [g.currentBlock]).map fun block => block.withPredecessors g.predecessors
  ({ identifier := method.identifier, arguments := arguments, blocks := blocks }, g.symbolTablePopScope)

def generateGlobals (g : LlirGenerator) : List IrField → List LlirField × LlirGenerator
  | [] => ([], g)
  | irField :: rest =>
    let (field, g) := generateField g irField
    let (fields, g) := generateGlobals g rest
    (field :: fields, g)

def generateMethods (g : LlirGenerator) : List IrMethod → List LlirMethod × LlirGenerator
  | [] => ([], g)
  | method :: rest =>
    let (first, g) := generateMethod g method
    let (methods, g) := generateMethods g rest
    (first :: methods, g)

def llirGeneratorNew : LlirGenerator :=
  { failed := false, temporaryCounter := 0, blockCounter := 0, symbolTable := [[]], breakBlocks := [],
    continueBlocks := [], blocks := [], currentBlock := llirBlockNew 0, predecessors := [], lookups := [],
    exits := [], terminated := [], writes := [] }

/-- `generate_llir` with the generator it leaves behind. -/
def generateLlir (program : IrProgram) : Llir × LlirGenerator :=
  let (fields, g) := generateGlobals llirGeneratorNew program.fields
  let (methods, g) := generateMethods g program.methods
  ({ fields := fields, methods := methods }, g)

def llirGeneratorGenerateLlir (program : IrProgram) : Option Llir :=
  let result := generateLlir program
  if result.2.failed then none else some result.1

end Roast
