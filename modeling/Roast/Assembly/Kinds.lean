import Roast.Assembly.Resolved
import Roast.Assembly.SafePrograms

/-! Arrays and scalars in generated code. The field of every access, update, operand and destination has the
right kind, but for an array whose bare name is the value of an expression, which the checker lets through in
the arguments of imported methods. -/
namespace Roast
open LlirGenerator

def LlirOperand.Scalar : LlirOperand → Prop
  | .field operand => operand.isArray = false
  | _ => True

def LlirAssignment.KindsRight : LlirAssignment → Prop
  | .unary _ source destination => source.Scalar ∧ destination.isArray = false
  | .binary _ left right destination => left.Scalar ∧ right.Scalar ∧ destination.isArray = false
  | .arrayUpdate index value destination => index.Scalar ∧ value.Scalar ∧ destination.isArray = true
  | .arrayAccess index array destination _ => index.Scalar ∧ array.isArray = true ∧ destination.isArray = false
  | .methodCall _ arguments destination => (∀ argument ∈ arguments, argument.Scalar) ∧ destination.isArray = false

def LlirTerminal.KindsRight : LlirTerminal → Prop
  | .branch terminal => terminal.left.Scalar ∧ terminal.right.Scalar
  | .llirReturn source => source.Scalar
  | _ => True

structure LlirBlock.KindsRight (block : LlirBlock) : Prop where
  assignments : ∀ assignment ∈ block.assignments, assignment.KindsRight
  terminal : block.terminal.KindsRight

mutual

/-- No array is named without an index where its value is taken. -/
def IrExpression.ScalarReads (scopes : List (List IrField)) : IrExpression → Prop
  | .binary _ left right => left.ScalarReads scopes ∧ right.ScalarReads scopes
  | .not expression | .negate expression => expression.ScalarReads scopes
  | .len _ _ => True
  | .methodCall _ arguments => arguments.ScalarReads scopes
  | .literal _ => True
  | .location location => location.ScalarReads scopes

def IrLocation.ScalarReads (scopes : List (List IrField)) : IrLocation → Prop
  | .scalar _ identifier => ∀ field ∈ Context.field ⟨scopes, []⟩ identifier, field.type.isArray = false
  | .element _ _ index => index.ScalarReads scopes

def IrArguments.ScalarReads (scopes : List (List IrField)) : IrArguments → Prop
  | .nil => True
  | .string _ rest => rest.ScalarReads scopes
  | .expression expression rest => expression.ScalarReads scopes ∧ rest.ScalarReads scopes

end

def IrLocation.ScalarIndex (scopes : List (List IrField)) : IrLocation → Prop
  | .scalar _ _ => True
  | .element _ _ index => index.ScalarReads scopes

def IrAssignment.ScalarReads (scopes : List (List IrField)) (assignment : IrAssignment) : Prop :=
  assignment.location.ScalarIndex scopes ∧ ∀ expression ∈ assignment.expression, expression.ScalarReads scopes

def IrForUpdate.ScalarReads (scopes : List (List IrField)) : IrForUpdate → Prop
  | .methodCall _ arguments => arguments.ScalarReads scopes
  | .assignment update => update.ScalarReads scopes

mutual

def IrStatement.ScalarReads (scopes : List (List IrField)) : IrStatement → Prop
  | .assignment statement => statement.ScalarReads scopes
  | .methodCall _ arguments => arguments.ScalarReads scopes
  | .ifStatement condition ifBlock => condition.ScalarReads scopes ∧ ifBlock.ScalarReads scopes []
  | .ifElseStatement condition ifBlock elseBlock =>
    condition.ScalarReads scopes ∧ ifBlock.ScalarReads scopes [] ∧ elseBlock.ScalarReads scopes []
  | .forStatement initial condition update block =>
    initial.ScalarReads scopes ∧ condition.ScalarReads scopes ∧ update.ScalarReads scopes ∧ block.ScalarReads scopes []
  | .whileStatement condition block => condition.ScalarReads scopes ∧ block.ScalarReads scopes []
  | .returnStatement expression => ∀ value ∈ expression, value.ScalarReads scopes
  | .breakStatement | .continueStatement => True

/-- `initial` are the parameters when the block is the outermost one of a method. -/
def IrBlock.ScalarReads (scopes : List (List IrField)) (initial : List IrField) : IrBlock → Prop
  | .mk fields statements => statements.ScalarReads ((initial ++ fields) :: scopes)

def IrStatements.ScalarReads (scopes : List (List IrField)) : IrStatements → Prop
  | .nil => True
  | .cons statement rest => statement.ScalarReads scopes ∧ rest.ScalarReads scopes

end

mutual

def IrStatement.declarations (level : Nat) : IrStatement → List (IrField × Nat)
  | .ifStatement _ ifBlock => ifBlock.declarations level
  | .ifElseStatement _ ifBlock elseBlock => ifBlock.declarations level ++ elseBlock.declarations level
  | .forStatement _ _ _ block | .whileStatement _ block => block.declarations level
  | _ => []

def IrBlock.declarations (level : Nat) : IrBlock → List (IrField × Nat)
  | .mk fields statements => fields.map (fun field => (field, level)) ++ statements.declarations (level + 1)

def IrStatements.declarations (level : Nat) : IrStatements → List (IrField × Nat)
  | .nil => []
  | .cons statement rest => statement.declarations level ++ rest.declarations level

end

def IrMethod.declarations (method : IrMethod) : List (IrField × Nat) :=
  method.arguments.map (fun field => (field, 1)) ++ method.block.declarations 1

def LlirGenerator.KindsRight (g : LlirGenerator) : Prop :=
  (∀ block ∈ g.blocks, block.KindsRight) ∧ ∀ assignment ∈ g.currentBlock.assignments, assignment.KindsRight

def LlirGenerator.declared (g : LlirGenerator) : List LlirField :=
  (g.layout.flatMap LlirBlock.fields).filter fun field => field.declaration.isSome

def LlirField.IsTemporary (field : LlirField) : Prop :=
  field.isArray = false ∧ TemporaryName 0 field.identifier

def LlirGenerator.TemporariesNamed (g : LlirGenerator) : Prop :=
  ∀ field ∈ g.layout.flatMap LlirBlock.fields, field.declaration = none → field.IsTemporary

def LlirGenerator.ArraysIndexed (g : LlirGenerator) : Prop :=
  ∀ assignment ∈ g.layout.flatMap LlirBlock.assignments, ∀ array ∈ assignment.array, array.isArray = true

private theorem LlirAssignment.KindsRight.indexes {assignment : LlirAssignment} (right : assignment.KindsRight) :
    ∀ array ∈ assignment.array, array.isArray = true := by
  intro array mem
  cases assignment with
  | arrayUpdate index value destination => exact Option.some.inj mem ▸ right.2.2
  | arrayAccess index other destination guarded => exact Option.some.inj mem ▸ right.2.1
  | unary | binary | methodCall => cases mem

/-- From `g` to `g'` the kinds stay right exactly when `right` holds, and `declared` are the new declarations. -/
structure LlirGenerator.Adds (g g' : LlirGenerator) (right : Prop) (declared : List (IrField × Nat)) : Prop where
  kinds : g'.KindsRight ↔ g.KindsRight ∧ right
  declared : g'.declared = g.declared ++ declared.map fun entry => entry.1.llirField entry.2
  temporaries : g.TemporariesNamed → g'.TemporariesNamed
  arrays : g.ArraysIndexed → g'.ArraysIndexed

namespace LlirGenerator.Adds
variable {g g' g'' : LlirGenerator} {right right' : Prop} {declared declared' : List (IrField × Nat)}

theorem trans (h : g.Adds g' right declared) (h' : g'.Adds g'' right' declared') :
    g.Adds g'' (right ∧ right') (declared ++ declared') where
  kinds := by rw [h'.kinds, h.kinds, and_assoc]
  declared := by rw [h'.declared, h.declared, List.append_assoc, List.map_append]
  temporaries := h'.temporaries ∘ h.temporaries
  arrays := h'.arrays ∘ h.arrays

theorem andThen (h : g.Adds g' right declared) (h' : g'.Adds g'' True []) : g.Adds g'' right declared := by
  simpa using h.trans h'

theorem before (h : g.Adds g' True []) (h' : g'.Adds g'' right declared) : g.Adds g'' right declared := by
  simpa using h.trans h'

theorem congr (h : g.Adds g' right declared) (same : right ↔ right') : g.Adds g' right' declared :=
  ⟨by rw [h.kinds, same], h.declared, h.temporaries, h.arrays⟩

/-- Operations that leave the blocks alone. -/
theorem of_same (blocks : g'.blocks = g.blocks) (currentBlock : g'.currentBlock = g.currentBlock) :
    g.Adds g' True [] := by
  have layout : g'.layout = g.layout := by rw [LlirGenerator.layout, blocks, currentBlock]; rfl
  refine ⟨?_, ?_, ?_, ?_⟩
  · rw [LlirGenerator.KindsRight, blocks, currentBlock, and_true]
    rfl
  · rw [LlirGenerator.declared, layout]
    exact (List.append_nil _).symm
  · intro named
    rw [LlirGenerator.TemporariesNamed, layout]
    exact named
  · intro indexed
    rw [LlirGenerator.ArraysIndexed, layout]
    exact indexed

end LlirGenerator.Adds

section
variable (g : LlirGenerator)

private theorem assert_adds (condition : Prop) [Decidable condition] : g.Adds (g.assert condition) True [] := by
  unfold LlirGenerator.assert
  split
  · exact .of_same rfl rfl
  · exact .of_same rfl rfl

private theorem addAssignment_adds {assignment : LlirAssignment}
    (indexes : ∀ array ∈ assignment.array, array.isArray = true) :
    g.Adds (g.addAssignment assignment) assignment.KindsRight [] := by
  refine ⟨?_, ?_, ?_, fun indexed => ?_⟩
  · simp only [LlirGenerator.KindsRight, LlirGenerator.addAssignment, List.forall_mem_append, List.forall_mem_singleton,
      and_assoc]
  · simp [LlirGenerator.declared, LlirGenerator.layout, LlirGenerator.addAssignment]
  · simp [LlirGenerator.TemporariesNamed, LlirGenerator.layout, LlirGenerator.addAssignment]
  · have laid : (g.addAssignment assignment).layout.flatMap LlirBlock.assignments =
        g.layout.flatMap LlirBlock.assignments ++ [assignment] := by
      simp [LlirGenerator.layout, LlirGenerator.addAssignment]
    rw [LlirGenerator.ArraysIndexed, laid, List.forall_mem_append, List.forall_mem_singleton]
    exact ⟨indexed, indexes⟩

private theorem addRight_adds {assignment : LlirAssignment} (right : assignment.KindsRight) :
    g.Adds (g.addAssignment assignment) True [] :=
  (addAssignment_adds g right.indexes).congr (iff_true_intro right)

private theorem newTemporary_adds {character : Char} (h : character = '$' ∨ character = '#') :
    g.Adds (g.newTemporary character).2 True [] := by
  refine ⟨?_, ?_, fun named field mem undeclared => ?_, ?_⟩
  · rw [and_true]
    rfl
  · simp [LlirGenerator.declared, LlirGenerator.layout, LlirGenerator.newTemporary, LlirGenerator.addField,
      LlirGenerator.symbolTableSet, llirFieldNew]
  · simp only [LlirGenerator.layout, LlirGenerator.newTemporary, LlirGenerator.addField, LlirGenerator.symbolTableSet,
      List.flatMap_append, List.flatMap_singleton, List.mem_append, List.mem_singleton] at mem
    rcases mem with mem | mem | rfl
    · exact named field (by simp [LlirGenerator.layout, mem]) undeclared
    · exact named field (by simp [LlirGenerator.layout, mem]) undeclared
    · exact ⟨rfl, g.temporaryCounter, Nat.zero_le _, by rcases h with rfl | rfl <;> simp [llirFieldNew]⟩
  · simp [LlirGenerator.ArraysIndexed, LlirGenerator.layout, LlirGenerator.newTemporary, LlirGenerator.addField,
      LlirGenerator.symbolTableSet]

private theorem newLocalTemporary_adds : g.Adds g.newLocalTemporary.2 True [] := newTemporary_adds g (.inl rfl)

private theorem newNonLocalTemporary_adds : g.Adds g.newNonLocalTemporary.2 True [] := newTemporary_adds g (.inr rfl)

private theorem newBlock_adds : g.Adds g.newBlock.2 True [] := .of_same rfl rfl

/-- A terminal ends the current block and the next one begins. -/
private theorem close_adds {terminal : LlirTerminal} (right : terminal.KindsRight) (next : Nat) :
    g.Adds ((g.setTerminal terminal).nextBlock next) True [] := by
  refine ⟨?_, ?_, ?_, ?_⟩
  · rw [and_true, LlirGenerator.KindsRight, LlirGenerator.nextBlock, LlirGenerator.setTerminal]
    simp only [List.forall_mem_append, List.forall_mem_singleton, llirBlockNew, List.not_mem_nil, false_imp_iff,
      implies_true, and_true]
    exact and_congr_right fun _ => ⟨fun block => block.assignments, fun assignments => ⟨assignments, right⟩⟩
  · simp [LlirGenerator.declared, LlirGenerator.layout, LlirGenerator.nextBlock, LlirGenerator.setTerminal, llirBlockNew]
  · simp [LlirGenerator.TemporariesNamed, LlirGenerator.layout, LlirGenerator.nextBlock, LlirGenerator.setTerminal,
      llirBlockNew]
  · simp [LlirGenerator.ArraysIndexed, LlirGenerator.layout, LlirGenerator.nextBlock, LlirGenerator.setTerminal,
      llirBlockNew]

private theorem jumpTo_adds (target next : Nat) : g.Adds (g.jumpTo target next) True [] := by
  have right : (LlirTerminal.jump target).KindsRight := trivial
  exact close_adds g right next

private theorem branchTo_adds (branch : LlirBranch) (left : branch.left.Scalar) (right : branch.right.Scalar) :
    g.Adds (g.branchTo branch) True [] := by
  have kinds : (LlirTerminal.branch branch).KindsRight := ⟨left, right⟩
  exact close_adds g kinds _

private theorem branchNew_adds (type : LlirBranchType) (unsignedComparison : Bool) {left right : LlirOperand}
    (hl : left.Scalar) (hr : right.Scalar) : g.Adds (g.branchNew type unsignedComparison left right).2 True [] :=
  ((newBlock_adds g).andThen (newBlock_adds _)).andThen (branchTo_adds _ _ hl hr)

private theorem leave_adds {terminal : LlirTerminal} (right : terminal.KindsRight) :
    g.Adds ((g.setTerminal terminal).newBlock.2.nextBlock (g.setTerminal terminal).newBlock.1) True [] :=
  (newBlock_adds g).before (close_adds g.newBlock.2 right _)

private theorem lookup_adds (location : IrLocation) : g.Adds (g.lookup location).2 True [] := by
  unfold LlirGenerator.lookup
  split
  · exact .of_same rfl rfl
  · exact .of_same rfl rfl

private theorem popScope_adds : g.Adds g.symbolTablePopScope True [] := by
  have asserted := assert_adds g (g.symbolTable ≠ [])
  unfold symbolTablePopScope
  exact asserted.andThen (.of_same rfl rfl)

end

/-- The value of an expression is a temporary. -/
private theorem generateExpression_scalar (g : LlirGenerator) (expression : IrExpression) :
    (generateExpression g expression).1.Scalar := by
  cases expression with
  | binary operator left right =>
    unfold generateExpression
    split
    · exact rfl
    · exact rfl
  | not expression => exact rfl
  | negate expression => exact rfl
  | len identifier length => exact rfl
  | methodCall identifier arguments => exact rfl
  | literal literal => exact rfl
  | location location =>
    cases location with
    | scalar node identifier => exact rfl
    | element node identifier index => exact rfl

private theorem generateArguments_scalar (g : LlirGenerator) (arguments : IrArguments) :
    ∀ operand ∈ (generateArguments g arguments).1, operand.Scalar := by
  match arguments with
  | .nil => simp [generateArguments]
  | .string _ rest => exact List.forall_mem_cons.mpr ⟨trivial, generateArguments_scalar g rest⟩
  | .expression expression rest =>
    exact List.forall_mem_cons.mpr ⟨generateExpression_scalar g expression, generateArguments_scalar _ rest⟩

section
variable {c : Context}

/-- A location is looked up with the kind of its declaration. -/
private theorem lookup_isArray {g : LlirGenerator} (hm : Matches c.scopes g.symbolTable) (location : IrLocation)
    {field : IrField} (found : c.field location.identifier = some field) :
    (g.lookup location).1.isArray = field.type.isArray := by
  obtain ⟨level, -, same, -⟩ := lookup_found hm location found
  rw [same]
  rfl

mutual

/-- An expression keeps the kinds right exactly if its bare names are scalars. -/
private theorem generateExpression_adds (g : LlirGenerator) (hm : Matches c.scopes g.symbolTable)
    (expression : IrExpression)
    {type : IrDataType} (typed : ExpressionTyped readyRules c expression type) :
    g.Adds (generateExpression g expression).2 (expression.ScalarReads c.scopes) [] := by
  cases expression with
  | binary operator left right =>
    cases typed with
    | binary op hl hr =>
      unfold generateExpression
      split
      · have made : g.Follows False _ _ := newNonLocalTemporary_follows g
        have toLeft := (newNonLocalTemporary_adds g).before (generateExpression_adds _ (made.matchesScopes hm) left hl)
        have followsLeft := made.before (generateExpression_follows _ (made.matchesScopes hm) left hl)
        have scalar := generateExpression_scalar g.newNonLocalTemporary.2 left
        have moved : (LlirAssignment.unary .move (generateExpression g.newNonLocalTemporary.2 left).1
            g.newNonLocalTemporary.1).KindsRight := ⟨scalar, rfl⟩
        have one : LlirOperand.Scalar (.literal 1) := trivial
        have toBranch := (toLeft.andThen (addRight_adds _ moved)).andThen
          (branchNew_adds _ (if operator = .or then .equal else .notEqual) false scalar one)
        have followsBranch := (followsLeft.andThen (addMove_follows _
          (generateExpression g.newNonLocalTemporary.2 left).1 g.newNonLocalTemporary.1)).andThen
          (branchNew_follows _ (if operator = .or then .equal else .notEqual) false
            (generateExpression g.newNonLocalTemporary.2 left).1 (.literal 1))
        have toRight := toBranch.trans (generateExpression_adds _ (followsBranch.matchesScopes hm) right hr)
        exact (toRight.andThen (addRight_adds _ (by exact ⟨generateExpression_scalar _ right, rfl⟩))).andThen
          (jumpTo_adds _ _ _)
      · have followsLeft : g.Follows False _ _ := generateExpression_follows g hm left hl
        have toRight := (generateExpression_adds g hm left hl).trans
          (generateExpression_adds _ (followsLeft.matchesScopes hm) right hr)
        exact (toRight.andThen (newLocalTemporary_adds _)).andThen (addRight_adds _
          ⟨generateExpression_scalar g left, generateExpression_scalar _ right, rfl⟩)
  | not expression =>
    cases typed with
    | not typed =>
      exact ((generateExpression_adds g hm expression typed).andThen (newLocalTemporary_adds _)).andThen
        (addRight_adds _ ⟨generateExpression_scalar g expression, rfl⟩)
  | negate expression =>
    cases typed with
    | negate typed =>
      exact ((generateExpression_adds g hm expression typed).andThen (newLocalTemporary_adds _)).andThen
        (addRight_adds _ ⟨generateExpression_scalar g expression, rfl⟩)
  | len identifier length => exact (newLocalTemporary_adds g).andThen (addRight_adds _ ⟨trivial, rfl⟩)
  | methodCall identifier arguments =>
    cases typed with
    | methodCall typed _ =>
      have made : g.Follows False _ _ := newLocalTemporary_follows g
      exact ((newLocalTemporary_adds g).before (generateArguments_adds _ (made.matchesScopes hm) arguments
        (callTyped_expressions typed))).andThen (addRight_adds _ ⟨generateArguments_scalar _ arguments, rfl⟩)
  | literal literal =>
    exact ((assert_adds g _).andThen (newLocalTemporary_adds _)).andThen (addRight_adds _ ⟨trivial, rfl⟩)
  | location location =>
    cases typed with
    | location typed => exact generateLocation_adds g hm location typed

/-- A location keeps the kinds right exactly if its bare names are scalars. -/
private theorem generateLocation_adds (g : LlirGenerator) (hm : Matches c.scopes g.symbolTable) (location : IrLocation)
    {field : IrField} {type : IrDataType} (typed : LocationTyped readyRules c location field type) :
    g.Adds (generateLocation g location).2 (location.ScalarReads c.scopes) [] := by
  cases location with
  | scalar node identifier =>
    cases typed with
    | scalar found =>
      have kind := lookup_isArray hm (.scalar node identifier) found
      -- the bare name is moved into a temporary, whatever its kind
      refine (((lookup_adds g _).andThen (newLocalTemporary_adds _)).before
        (addAssignment_adds _ fun _ none => by cases none)).congr ?_
      have moved : (LlirAssignment.unary .move (.field (g.lookup (.scalar node identifier)).1)
          (g.lookup (.scalar node identifier)).2.newLocalTemporary.1).KindsRight ↔ field.type.isArray = false :=
        kind ▸ and_iff_left rfl
      refine moved.trans ?_
      have visible : Context.field ⟨c.scopes, []⟩ identifier = some field := found
      unfold IrLocation.ScalarReads
      rw [visible]
      simp
  | element node identifier index =>
    cases typed with
    | element found array typed =>
      have kind := lookup_isArray hm (.element node identifier index) found
      have made : g.Follows False _ _ := (lookup_follows hm (.element node identifier index) found).andThen
        (newLocalTemporary_follows _)
      exact (((lookup_adds g _).andThen (newLocalTemporary_adds _)).before (generateExpression_adds _
        (made.matchesScopes hm) index typed)).andThen
          (addRight_adds _ ⟨generateExpression_scalar _ index, kind.trans array, rfl⟩)

private theorem generateArguments_adds (g : LlirGenerator) (hm : Matches c.scopes g.symbolTable)
    (arguments : IrArguments)
    (typed : ∀ expression ∈ arguments.expressions, ∃ type, ExpressionTyped readyRules c expression type) :
    g.Adds (generateArguments g arguments).2 (arguments.ScalarReads c.scopes) [] := by
  cases arguments with
  | nil => exact .of_same rfl rfl
  | string string rest => exact generateArguments_adds g hm rest typed
  | expression expression rest =>
    obtain ⟨type, first⟩ := typed expression (List.mem_cons_self ..)
    have follows : g.Follows False _ _ := generateExpression_follows g hm expression first
    exact (generateExpression_adds g hm expression first).trans (generateArguments_adds _ (follows.matchesScopes hm) rest
      fun other mem => typed other (List.mem_cons_of_mem _ mem))

end

private theorem generateMethodCall_adds (g : LlirGenerator) (hm : Matches c.scopes g.symbolTable) {identifier : String}
    {arguments : IrArguments} {type : IrDataType} (typed : CallTyped readyRules c identifier arguments type) :
    g.Adds (generateMethodCall g identifier arguments).2 (arguments.ScalarReads c.scopes) [] := by
  have made : g.Follows False _ _ := newLocalTemporary_follows g
  exact ((newLocalTemporary_adds g).before (generateArguments_adds _ (made.matchesScopes hm) arguments
    (callTyped_expressions typed))).andThen (addRight_adds _ ⟨generateArguments_scalar _ arguments, rfl⟩)

private theorem generateBoundsCheck_adds (g : LlirGenerator) {index : LlirOperand} (scalar : index.Scalar)
    (length : Word) :
    g.Adds (generateBoundsCheck g index length) True [] := by
  have limit : LlirOperand.Scalar (.literal length) := trivial
  have exits : (LlirTerminal.shitYourself (-1)).KindsRight := trivial
  exact (branchNew_adds g .less true scalar limit).andThen (close_adds _ exits _)

def KindFits (field : LlirField) (index : Option LlirOperand) : Prop :=
  field.isArray = index.isSome ∧ ∀ operand ∈ index, operand.Scalar

private theorem addRead_adds (g : LlirGenerator) {field destination : LlirField} {index : Option LlirOperand}
    (fits : KindFits field index) (scalar : destination.isArray = false) :
    g.Adds (g.addRead field destination index) True [] := by
  cases index with
  | none => exact addRight_adds g ⟨fits.1, scalar⟩
  | some index => exact addRight_adds g ⟨fits.2 index rfl, fits.1, scalar⟩

private theorem addWrite_adds (g : LlirGenerator) {field : LlirField} {source : LlirOperand}
    {index : Option LlirOperand}
    (fits : KindFits field index) (scalar : source.Scalar) : g.Adds (g.addWrite field source index) True [] := by
  have logged (assignment : LlirAssignment) (right : assignment.KindsRight) :
      g.Adds { g.addAssignment assignment with writes := g.writes ++ [assignment] } True [] :=
    (addRight_adds g right).andThen (.of_same rfl rfl)
  cases index with
  | none => exact logged _ ⟨scalar, fits.1⟩
  | some index => exact logged _ ⟨fits.2 index rfl, scalar, fits.1⟩

private theorem generateAssignmentWrite_adds (g : LlirGenerator) (assignOperator : IrAssignOperator) {field : LlirField}
    {index : Option LlirOperand} (fits : KindFits field index) {source : LlirOperand} (scalar : source.Scalar) :
    g.Adds (generateAssignmentWrite g assignOperator field index source) True [] := by
  unfold generateAssignmentWrite
  split
  · exact addWrite_adds g fits scalar
  · exact ((((newLocalTemporary_adds g).andThen (addRead_adds _ fits rfl)).andThen (newLocalTemporary_adds _)).andThen
      (addRight_adds _ (by exact ⟨rfl, scalar, rfl⟩))).andThen (addWrite_adds _ fits rfl)

private theorem generateSource_adds (g : LlirGenerator) (hm : Matches c.scopes g.symbolTable)
    {source : Option IrExpression}
    {type : IrDataType} (typed : ∀ expression, source = some expression → ExpressionTyped readyRules c expression type) :
    g.Adds (generateSource g source).2 (∀ expression ∈ source, expression.ScalarReads c.scopes) [] ∧
      (generateSource g source).1.Scalar := by
  cases source with
  | none => exact ⟨(LlirGenerator.Adds.of_same rfl rfl).congr (by simp), trivial⟩
  | some expression =>
    exact ⟨(generateExpression_adds g hm expression (typed expression rfl)).congr (by simp),
      generateExpression_scalar g expression⟩

private theorem generateAssignmentIndex_adds (g : LlirGenerator) (hm : Matches c.scopes g.symbolTable)
    {location : IrLocation}
    {field : IrField} {type : IrDataType} (typed : LocationTyped readyRules c location field type)
    (scalar : type.isArray = false) :
    g.Adds (generateAssignmentIndex (g.lookup location).2 (g.lookup location).1 location).2 (location.ScalarIndex c.scopes) [] ∧
      KindFits (g.lookup location).1 (generateAssignmentIndex (g.lookup location).2 (g.lookup location).1 location).1 := by
  cases typed with
  | @scalar node identifier _ found =>
    exact ⟨lookup_adds g _, (lookup_isArray hm (.scalar node identifier) found).trans scalar, by
      simp [generateAssignmentIndex]⟩
  | @element node identifier index _ found array typed =>
    have follows : g.Follows False _ _ := lookup_follows hm (.element node identifier index) found
    have value := generateExpression_scalar (g.lookup (.element node identifier index)).2 index
    refine ⟨((lookup_adds g _).before (generateExpression_adds _ (follows.matchesScopes hm) index typed)).andThen
      (generateBoundsCheck_adds _ value _), (lookup_isArray hm (.element node identifier index) found).trans array, ?_⟩
    intro operand mem
    obtain rfl := Option.mem_some_iff.mp mem
    exact value

private theorem generateAssignment_adds (g : LlirGenerator) (hm : Matches c.scopes g.symbolTable)
    {assignment : IrAssignment}
    (typed : AssignmentTyped readyRules c assignment) :
    g.Adds (generateAssignment g assignment) (assignment.ScalarReads c.scopes) [] := by
  obtain ⟨field, type, location, -, scalar, -, source⟩ := typed.location
  obtain ⟨indexed, fits⟩ := generateAssignmentIndex_adds g hm location scalar
  have follows : g.Follows False _ _ := generateAssignmentIndex_follows g hm location
  obtain ⟨evaluated, value⟩ := generateSource_adds _ (follows.matchesScopes hm) source
  exact (indexed.trans evaluated).andThen (generateAssignmentWrite_adds _ _ fits value)

private theorem generateForUpdate_adds (g : LlirGenerator) (hm : Matches c.scopes g.symbolTable) {update : IrForUpdate}
    (typed : ForUpdateTyped readyRules c update) :
    g.Adds (generateForUpdate g update) (update.ScalarReads c.scopes) [] := by
  cases typed with
  | methodCall typed => exact generateMethodCall_adds g hm typed
  | assignment typed => exact generateAssignment_adds g hm typed

end

section
variable {scope : List IrField} {scopes : List (List IrField)}

private theorem foldl_addAssignment_adds {assignments : List LlirAssignment}
    (right : ∀ assignment ∈ assignments, assignment.KindsRight) (g : LlirGenerator) :
    g.Adds (assignments.foldl addAssignment g) True [] := by
  induction assignments generalizing g with
  | nil => exact .of_same rfl rfl
  | cons assignment rest ih =>
    rw [List.forall_mem_cons] at right
    exact (addRight_adds g right.1).andThen (ih right.2 _)

private theorem generateFieldInitialization_adds (g : LlirGenerator) (field : LlirField) :
    g.Adds (generateFieldInitialization g field) True [] := by
  unfold generateFieldInitialization
  by_cases array : field.isArray = true
  · rw [if_pos array]
    refine (assert_adds g _).andThen (foldl_addAssignment_adds (fun assignment mem => ?_) _)
    obtain ⟨i, -, rfl⟩ := List.mem_map.mp mem
    exact ⟨trivial, trivial, array⟩
  · rw [if_neg array]
    exact addRight_adds g ⟨trivial, by simpa using array⟩

private theorem addField_adds (g : LlirGenerator) (field : IrField) (level : Nat) :
    g.Adds (g.addField (field.llirField level)) True [(field, level)] := by
  refine ⟨?_, ?_, fun named other mem undeclared => ?_, ?_⟩
  · rw [and_true]
    rfl
  · simp [LlirGenerator.declared, LlirGenerator.layout, LlirGenerator.addField, IrField.llirField, llirFieldNew]
  · simp only [LlirGenerator.layout, LlirGenerator.addField, List.flatMap_append, List.flatMap_singleton,
      List.mem_append, List.mem_singleton] at mem
    rcases mem with mem | mem | rfl
    · exact named other (by simp [LlirGenerator.layout, mem]) undeclared
    · exact named other (by simp [LlirGenerator.layout, mem]) undeclared
    · exact absurd undeclared (by simp [IrField.llirField, llirFieldNew])
  · simp [LlirGenerator.ArraysIndexed, LlirGenerator.layout, LlirGenerator.addField]

private theorem generateField_adds (g : LlirGenerator) (field : IrField) : g.Adds (generateField g field).2 True [] :=
  (assert_adds g _).andThen (.of_same rfl rfl)

private theorem generateBlockField_adds (g : LlirGenerator) (hm : Matches (scope :: scopes) g.symbolTable)
    (field : IrField) :
    g.Adds (generateBlockField g field) True [(field, scopes.length)] := by
  have made := generateField_field hm field
  have added := addField_adds (generateField g field).2 field scopes.length
  unfold generateBlockField
  dsimp only
  rw [made]
  exact ((generateField_adds g field).before added).andThen (generateFieldInitialization_adds _ _)

/-- The declarations of a block are added in order. -/
private theorem generateBlockFields_adds (g : LlirGenerator) (hm : Matches (scope :: scopes) g.symbolTable)
    {fields : List IrField} (distinct : ((scope ++ fields).map IrField.identifier).Nodup)
    (ready : ∀ field ∈ fields, field.Ready) :
    g.Adds (fields.foldl generateBlockField g) True (fields.map fun field => (field, scopes.length)) := by
  induction fields generalizing g scope with
  | nil => exact .of_same rfl rfl
  | cons field rest ih =>
    have fresh : field.identifier ∉ scope.map IrField.identifier := by
      rw [List.map_append, List.nodup_append] at distinct
      intro mem
      exact distinct.2.2 _ mem _ (by simp) rfl
    obtain ⟨-, hm'⟩ : g.Declares False _ ∧ _ := generateBlockField_declares hm (ready field (by simp)) fresh False.elim
    have rest := ih _ hm' (by simpa using distinct) fun other mem => ready other (List.mem_cons_of_mem _ mem)
    exact ((generateBlockField_adds g hm field).trans rest).congr (by simp)

end

section
variable {returnType : IrDataType}

private theorem generateReturnStatement_adds {c : Context} (g : LlirGenerator) (hm : Matches c.scopes g.symbolTable)
    {expression : Option IrExpression} (typed : ReturnTyped readyRules c returnType expression) :
    g.Adds (generateReturnStatement g expression) (∀ value ∈ expression, value.ScalarReads c.scopes) [] := by
  cases typed with
  | none =>
    have right : (LlirTerminal.llirReturn (.literal 0)).KindsRight := trivial
    exact (leave_adds g right).congr (by simp)
  | @some value typed =>
    have right : (LlirTerminal.llirReturn (generateExpression g value).1).KindsRight := generateExpression_scalar g value
    exact ((generateExpression_adds g hm value typed).andThen (leave_adds _ right)).congr (by simp)

private theorem exit_adds (g : LlirGenerator) (exit : Option Nat × Nat) (target : Nat) :
    g.Adds ((({ g with exits := g.exits ++ [exit] }.setTerminal (.jump target)).newBlock.2).nextBlock
      ({ g with exits := g.exits ++ [exit] }.setTerminal (.jump target)).newBlock.1) True [] := by
  have right : (LlirTerminal.jump target).KindsRight := trivial
  have logged : g.Adds { g with exits := g.exits ++ [exit] } True [] := .of_same rfl rfl
  exact logged.andThen (leave_adds _ right)

private theorem popLoop_adds (g : LlirGenerator) : g.Adds g.popLoop True [] := by
  unfold LlirGenerator.popLoop
  exact (assert_adds g _).andThen (.of_same rfl rfl)

private theorem pushLoop_adds (g : LlirGenerator) (breakBlock continueBlock : Nat) :
    g.Adds (g.pushLoop breakBlock continueBlock) True [] := .of_same rfl rfl

/-- A loop up to its first branch. -/
private theorem loopHead_adds {c : Context} (g : LlirGenerator) (hm : Matches c.scopes g.symbolTable)
    {condition : IrExpression} (typed : ExpressionTyped readyRules c condition .bool)
    (conditionBlock loopBlock endBlock continueBlock : Nat) :
    let entered := (g.pushLoop endBlock continueBlock).jumpTo conditionBlock conditionBlock
    let operand := (generateExpression entered condition).1
    g.Adds ((generateExpression entered condition).2.branchTo
      ⟨.equal, false, operand, .literal 0, loopBlock, endBlock⟩) (condition.ScalarReads c.scopes) [] := by
  intro entered operand
  have jumped : (g.pushLoop endBlock continueBlock).Follows False entered [] := jumpTo_follows _ _ _
  have zero : LlirOperand.Scalar (.literal 0) := trivial
  exact (((pushLoop_adds g _ _).andThen (jumpTo_adds _ _ _)).before (generateExpression_adds entered
    (jumped.matchesScopes hm) condition typed)).andThen (branchTo_adds _ _ (generateExpression_scalar _ _) zero)

mutual

/-- A statement adds its declarations and keeps the kinds right exactly if its bare names are scalars. -/
private theorem generateStatement_adds (g : LlirGenerator) (loop : Option (Nat × Nat)) (statement : IrStatement)
    {c : Context} {inLoop : Prop} (hm : Matches c.scopes g.symbolTable) (hl : g.InnermostLoop loop inLoop)
    (typed : StatementTyped readyRules returnType c inLoop statement) :
    g.Adds (generateStatement g loop statement) (statement.ScalarReads c.scopes)
      (statement.declarations c.scopes.length) := by
  have zero : LlirOperand.Scalar (.literal 0) := trivial
  cases statement with
  | assignment assignment =>
    cases typed with
    | assignment typed => exact generateAssignment_adds g hm typed
  | methodCall identifier arguments =>
    cases typed with
    | methodCall typed => exact generateMethodCall_adds g hm typed
  | ifStatement condition ifBlock =>
    cases typed with
    | ifStatement hc hb =>
      have follows : g.Follows False _ _ := (generateExpression_follows g hm condition hc).andThen
        (branchNew_follows _ .equal false (generateExpression g condition).1 (.literal 0))
      have first := (generateExpression_adds g hm condition hc).andThen
        (branchNew_adds _ .equal false (generateExpression_scalar g condition) zero)
      exact (first.trans (generateBlock_adds _ loop ifBlock (follows.matchesScopes hm) (follows.innermostLoop hl)
        hb)).andThen (jumpTo_adds _ _ _)
  | ifElseStatement condition ifBlock elseBlock =>
    cases typed with
    | ifElseStatement hc hb he =>
      have follows : g.Follows False _ _ := (generateExpression_follows g hm condition hc).andThen
        (branchNew_follows _ .equal false (generateExpression g condition).1 (.literal 0))
      have followsBlock (target next : Nat) : g.Follows False _ _ := ((follows.trans (generateBlock_follows _ loop
        ifBlock (follows.matchesScopes hm) (follows.innermostLoop hl) hb False.elim)).andThen
          (newBlock_follows _)).andThen (jumpTo_follows _ target next)
      have first := (generateExpression_adds g hm condition hc).andThen
        (branchNew_adds _ .equal false (generateExpression_scalar g condition) zero)
      have second (target next : Nat) := ((first.trans (generateBlock_adds _ loop ifBlock (follows.matchesScopes hm)
        (follows.innermostLoop hl) hb)).andThen (newBlock_adds _)).andThen (jumpTo_adds _ target next)
      have third (target next : Nat) := (second target next).trans (generateBlock_adds _ loop elseBlock
        ((followsBlock target next).matchesScopes hm) ((followsBlock target next).innermostLoop hl) he)
      exact ((third _ _).andThen (jumpTo_adds _ _ _)).congr and_assoc
  | forStatement initial condition update block =>
    cases typed with
    | forStatement hi hc hu hb =>
      have follows : g.Follows False _ _ := ((((generateAssignment_follows g hm hi).andThen
        (newBlock_follows _)).andThen (newBlock_follows _)).andThen (newBlock_follows _)).andThen
          (newBlock_follows _)
      have before := ((((generateAssignment_adds g hm hi).andThen (newBlock_adds _)).andThen
        (newBlock_adds _)).andThen (newBlock_adds _)).andThen (newBlock_adds _)
      have followsHead (conditionBlock loopBlock endBlock continueBlock : Nat) : LlirGenerator.Follows False _ _ _ :=
        loopHead_follows _ (follows.matchesScopes hm) hc conditionBlock loopBlock endBlock continueBlock
      have head (conditionBlock loopBlock endBlock continueBlock : Nat) := before.trans (loopHead_adds _
        (follows.matchesScopes hm) hc conditionBlock loopBlock endBlock continueBlock)
      have followsBody (conditionBlock loopBlock endBlock continueBlock : Nat) : LlirGenerator.Follows False _ _ _ :=
        (loopBlock_follows _ (follows.matchesScopes hm) hc conditionBlock loopBlock endBlock continueBlock
          fun g hm hl => generateBlock_follows g _ block hm hl hb False.elim).andThen
            (jumpTo_follows _ continueBlock continueBlock)
      have body (conditionBlock loopBlock endBlock continueBlock : Nat) :=
        ((head conditionBlock loopBlock endBlock continueBlock).trans (generateBlock_adds _
          (some (endBlock, continueBlock)) block
          ((followsHead conditionBlock loopBlock endBlock continueBlock).matchesScopes (follows.matchesScopes hm))
          ((followsHead conditionBlock loopBlock endBlock continueBlock).innermostLoop
            fun _ => ⟨(endBlock, continueBlock), rfl, rfl, rfl⟩) hb)).andThen
              (jumpTo_adds _ continueBlock continueBlock)
      have updated (conditionBlock loopBlock endBlock continueBlock : Nat) :=
        (body conditionBlock loopBlock endBlock continueBlock).trans (generateForUpdate_adds _
          ((followsBody conditionBlock loopBlock endBlock continueBlock).matchesScopes (follows.matchesScopes hm)) hu)
      have whole : g.Adds (generateStatement g loop (.forStatement initial condition update block)) _ _ :=
        ((updated _ _ _ _).andThen (jumpTo_adds _ _ _)).andThen (popLoop_adds _)
      have reads := whole.congr
        (show _ ↔ (IrStatement.forStatement initial condition update block).ScalarReads c.scopes by simp only [IrStatement.ScalarReads]; tauto)
      simpa [IrStatement.declarations] using reads
  | whileStatement condition block =>
    cases typed with
    | whileStatement hc hb =>
      have follows : g.Follows False _ [] := ((newBlock_follows g).andThen (newBlock_follows _)).andThen
        (newBlock_follows _)
      have before := ((newBlock_adds g).andThen (newBlock_adds _)).andThen (newBlock_adds _)
      have followsHead : LlirGenerator.Follows False _ _ _ := loopHead_follows _ (follows.matchesScopes hm) hc
        g.newBlock.1 g.newBlock.2.newBlock.1 g.newBlock.2.newBlock.2.newBlock.1 g.newBlock.1
      have head := before.before (loopHead_adds _ (follows.matchesScopes hm) hc g.newBlock.1 g.newBlock.2.newBlock.1
        g.newBlock.2.newBlock.2.newBlock.1 g.newBlock.1)
      have body := head.trans (generateBlock_adds _ (some (g.newBlock.2.newBlock.2.newBlock.1, g.newBlock.1)) block
        (followsHead.matchesScopes (follows.matchesScopes hm))
        (followsHead.innermostLoop fun _ => ⟨_, rfl, rfl, rfl⟩) hb)
      exact (body.andThen (jumpTo_adds _ _ _)).andThen (popLoop_adds _)
  | returnStatement expression =>
    cases typed with
    | returnStatement typed => exact generateReturnStatement_adds g hm typed
  | breakStatement =>
    exact (assert_adds g _).andThen (exit_adds _ (loop.map Prod.fst, g.breakBlocks.headD 0) _)
  | continueStatement =>
    exact (assert_adds g _).andThen (exit_adds _ (loop.map Prod.snd, g.continueBlocks.headD 0) _)

/-- A block adds its declarations and keeps the kinds right exactly if its bare names are scalars. -/
private theorem generateBlock_adds (g : LlirGenerator) (loop : Option (Nat × Nat)) (block : IrBlock)
    {c : Context} {inLoop : Prop} (hm : Matches c.scopes g.symbolTable) (hl : g.InnermostLoop loop inLoop)
    (typed : BlockTyped readyRules returnType c inLoop [] block) :
    g.Adds (generateBlock g loop true block) (block.ScalarReads c.scopes []) (block.declarations c.scopes.length) := by
  cases block with
  | mk fields statements =>
    cases typed with
    | mk scope typed =>
      have entered : Matches ([] :: c.scopes) g.symbolTablePushScope.symbolTable :=
        .cons (by simp) .nil (fun _ _ => rfl) hm
      obtain ⟨declared, hm'⟩ : g.symbolTablePushScope.Declares False _ ∧ _ :=
        generateBlockFields_declares entered scope.distinct scope.field False.elim
      rw [map_analyzed scope.field] at typed
      have pushed : g.Adds g.symbolTablePushScope True [] := .of_same rfl rfl
      have filled := pushed.before (generateBlockFields_adds _ entered scope.distinct scope.field)
      have rest := generateStatements_adds _ loop statements hm' (declared.innermostLoop hl) typed
      exact ((filled.trans rest).andThen (popScope_adds _)).congr (iff_of_eq (true_and _))

/-- Statements add their declarations and keep the kinds right exactly if their bare names are scalars. -/
private theorem generateStatements_adds (g : LlirGenerator) (loop : Option (Nat × Nat)) (statements : IrStatements)
    {c : Context} {inLoop : Prop} (hm : Matches c.scopes g.symbolTable) (hl : g.InnermostLoop loop inLoop)
    (typed : StatementsTyped readyRules returnType c inLoop statements) :
    g.Adds (generateStatements g loop statements) (statements.ScalarReads c.scopes)
      (statements.declarations c.scopes.length) := by
  cases statements with
  | nil => exact .of_same rfl rfl
  | cons statement rest =>
    cases typed with
    | cons hs hr =>
      have first : g.Follows False _ _ := generateStatement_follows g loop statement hm hl hs False.elim
      exact (generateStatement_adds g loop statement hm hl hs).trans (generateStatements_adds _ loop rest
        (first.matchesScopes hm) (first.innermostLoop hl) hr)

end

end

section
variable {returnType : IrDataType}

mutual

/-- The declarations of a statement are ready and lie at its level or further in. -/
private theorem statement_declarations {c : Context} {inLoop : Prop} (statement : IrStatement)
    (typed : StatementTyped readyRules returnType c inLoop statement) (level : Nat) :
    ∀ entry ∈ statement.declarations level, level ≤ entry.2 ∧ entry.1.Ready := by
  cases typed with
  | ifStatement _ hb => exact block_declarations _ hb level
  | ifElseStatement _ hb he =>
    intro entry mem
    rcases List.mem_append.mp mem with mem | mem
    · exact block_declarations _ hb level entry mem
    · exact block_declarations _ he level entry mem
  | forStatement _ _ _ hb => exact block_declarations _ hb level
  | whileStatement _ hb => exact block_declarations _ hb level
  | _ => simp [IrStatement.declarations]

theorem block_declarations {c : Context} {inLoop : Prop} {initial : List IrField} (block : IrBlock)
    (typed : BlockTyped readyRules returnType c inLoop initial block) (level : Nat) :
    ∀ entry ∈ block.declarations level, level ≤ entry.2 ∧ entry.1.Ready := by
  cases typed with
  | mk scope typed =>
    intro entry mem
    rcases List.mem_append.mp mem with mem | mem
    · obtain ⟨field, inside, rfl⟩ := List.mem_map.mp mem
      exact ⟨le_rfl, scope.field field (List.mem_append_right _ inside)⟩
    · obtain ⟨deeper, ready⟩ := statements_declarations _ typed (level + 1) entry mem
      exact ⟨by omega, ready⟩

private theorem statements_declarations {c : Context} {inLoop : Prop} (statements : IrStatements)
    (typed : StatementsTyped readyRules returnType c inLoop statements) (level : Nat) :
    ∀ entry ∈ statements.declarations level, level ≤ entry.2 ∧ entry.1.Ready := by
  cases typed with
  | nil => simp [IrStatements.declarations]
  | cons hs hr =>
    intro entry mem
    rcases List.mem_append.mp mem with mem | mem
    · exact statement_declarations _ hs level entry mem
    · exact statements_declarations _ hr level entry mem

end

end

/-- The storage name of a declaration determines its level and its identifier. -/
private theorem storage_inj {field field' : IrField} (name : IsIdentifier field.identifier)
    (name' : IsIdentifier field'.identifier) {level level' : Nat}
    (same : (field.llirField level).identifier = (field'.llirField level').identifier) :
    level = level' ∧ field.identifier = field'.identifier := by
  rcases Nat.eq_zero_or_pos level with rfl | positive
  · rcases Nat.eq_zero_or_pos level' with rfl | positive'
    · exact ⟨rfl, same⟩
    · rw [llirField_identifier_zero] at same
      exact absurd (same ▸ name) (llirField_not_identifier positive' field')
  · rcases Nat.eq_zero_or_pos level' with rfl | positive'
    · rw [llirField_identifier_zero] at same
      exact absurd (same ▸ name') (llirField_not_identifier positive field)
    · exact llirField_identifier_inj positive positive' name name' same

section
variable {g : LlirGenerator} {c : Context} {method : IrMethod}

/-- A body adds its declarations and keeps the kinds right exactly if its bare names are scalars. -/
theorem generateMethodBody_adds (hm : Matches c.scopes g.symbolTable)
    (typed : BlockTyped readyRules method.returnType c False method.arguments method.block) :
    (generateMethodStart g method).Adds (generateMethodBody g method)
      (method.block.ScalarReads c.scopes method.arguments) (method.block.declarations c.scopes.length) := by
  unfold generateMethodBody
  cases hblock : method.block with
  | mk fields statements =>
    rw [hblock] at typed
    cases typed with
    | mk scope typed =>
      have distinct := scope.distinct
      rw [List.map_append, List.nodup_append] at distinct
      have entered : Matches ([] :: c.scopes) g.symbolTablePushScope.symbolTable :=
        .cons (by simp) .nil (fun _ _ => rfl) hm
      obtain ⟨-, -, hm'⟩ : _ ∧ g.symbolTablePushScope.Declares False _ ∧ _ :=
        generateMethodArguments_declares entered (by simpa using distinct.1)
          fun field mem => scope.field field (List.mem_append_left _ mem)
      have start : Matches (method.arguments :: c.scopes) (generateMethodStart g method).symbolTable := hm'
      have ready (field : IrField) (mem : field ∈ fields) : field.Ready :=
        scope.field field (List.mem_append_right _ mem)
      obtain ⟨-, hm''⟩ : (generateMethodStart g method).Declares False _ ∧ _ :=
        generateBlockFields_declares start scope.distinct ready False.elim
      rw [map_analyzed scope.field] at typed
      have filled := generateBlockFields_adds _ start scope.distinct ready
      have rest := generateStatements_adds (c := c.enter (method.arguments ++ fields)) _ none statements hm''
        (fun inLoop => inLoop.elim) typed
      exact (filled.trans rest).congr (iff_of_eq (true_and _))

/-- The code of a method has the right kinds exactly when its source reads no array by its bare name. -/
private theorem generateMethod_kinds (hm : Matches c.scopes g.symbolTable)
    (typed : BlockTyped readyRules method.returnType c False method.arguments method.block) :
    (∀ block ∈ (generateMethod g method).1.blocks, block.KindsRight) ↔
      method.block.ScalarReads c.scopes method.arguments := by
  have body := (generateMethodBody_adds hm typed).kinds
  have start : (generateMethodStart g method).KindsRight := by
    simp [LlirGenerator.KindsRight, generateMethodStart, llirBlockNew]
  have ends : (methodEnd method).KindsRight := by
    unfold methodEnd
    split
    · exact trivial
    · exact trivial
  rw [generateMethod_eq, List.forall_mem_map, LlirGenerator.layout, List.forall_mem_append, List.forall_mem_singleton]
  have closed : (∀ block ∈ (generateMethodBody g method).blocks, block.KindsRight) ∧
      ((generateMethodBody g method).setTerminal (methodEnd method)).currentBlock.KindsRight ↔
      (generateMethodBody g method).KindsRight :=
    and_congr_right fun _ => ⟨fun block => block.assignments, fun assignments => ⟨assignments, ends⟩⟩
  have same (block : LlirBlock) (predecessors : List (Nat × Nat)) :
      (block.withPredecessors predecessors).KindsRight ↔ block.KindsRight :=
    ⟨fun h => ⟨h.assignments, h.terminal⟩, fun h => ⟨h.assignments, h.terminal⟩⟩
  rw [same, forall₂_congr fun block _ => same block _]
  exact closed.trans (body.trans (and_iff_right start))

/-- The fields in the blocks of a method are its declarations and temporaries. -/
theorem generateMethod_fields (hm : Matches c.scopes g.symbolTable)
    (typed : BlockTyped readyRules method.returnType c False method.arguments method.block) :
    (∀ field ∈ (generateMethod g method).1.blocks.flatMap LlirBlock.fields, field.IsTemporary ∨
        ∃ entry ∈ method.block.declarations c.scopes.length, field = entry.1.llirField entry.2) ∧
      ∀ entry ∈ method.block.declarations c.scopes.length,
        entry.1.llirField entry.2 ∈ (generateMethod g method).1.blocks.flatMap LlirBlock.fields := by
  have body := generateMethodBody_adds hm typed
  have none : (generateMethodStart g method).declared = [] := by
    simp [LlirGenerator.declared, LlirGenerator.layout, generateMethodStart, llirBlockNew]
  have temporaries : (generateMethodBody g method).TemporariesNamed := by
    refine body.temporaries ?_
    simp [LlirGenerator.TemporariesNamed, LlirGenerator.layout, generateMethodStart, llirBlockNew]
  have declared := body.declared
  rw [none, List.nil_append] at declared
  have fields : (generateMethod g method).1.blocks.flatMap LlirBlock.fields =
      (generateMethodBody g method).layout.flatMap LlirBlock.fields := by
    rw [generateMethod_eq, List.flatMap_map]
    simp [LlirGenerator.layout, LlirGenerator.setTerminal, LlirBlock.withPredecessors]
  rw [fields]
  refine ⟨fun field mem => ?_, fun entry mem => ?_⟩
  · cases declaration : field.declaration with
    | none => exact .inl (temporaries field mem declaration)
    | some source =>
      have inside : field ∈ (generateMethodBody g method).declared :=
        List.mem_filter.mpr ⟨mem, by simp [declaration]⟩
      rw [declared] at inside
      obtain ⟨entry, listed, rfl⟩ := List.mem_map.mp inside
      exact .inr ⟨entry, listed, rfl⟩
  · have inside : entry.1.llirField entry.2 ∈ (generateMethodBody g method).declared := by
      rw [declared]
      exact List.mem_map_of_mem mem
    exact List.mem_of_mem_filter inside

end

/-- Arrays and scalars are not confused in the code of a method nor in the names that it can mention. -/
structure LlirMethod.KindsDistinct (globals : List LlirField) (method : LlirMethod) : Prop where
  blocks : ∀ block ∈ method.blocks, block.KindsRight
  names : ∀ field ∈ globals ++ method.fields, ∀ field' ∈ globals ++ method.fields,
    field.identifier = field'.identifier → field.isArray = field'.isArray

/-- Declarations in scopes of one level that share an identifier are all arrays or all scalars. -/
def IrMethod.KindsAgree (method : IrMethod) : Prop :=
  ∀ entry ∈ method.declarations, ∀ entry' ∈ method.declarations, entry.1.identifier = entry'.1.identifier →
    entry.2 = entry'.2 → entry.1.type.isArray = entry'.1.type.isArray

/-- Arrays and scalars of a method are kept apart exactly when it reads no array by its bare name, which an
accepted program does only to pass it to an imported method, and when its declarations agree. -/
theorem accepts_kindsDistinct_iff {program analyzed : IrProgram} (source : program.FromSource)
    (accepted : Accepts program analyzed) {llir : Llir} (generated : llirGeneratorGenerateLlir analyzed = some llir)
    {method : IrMethod} (mem : method ∈ analyzed.methods) {lowered : LlirMethod}
    (found : llir.method method.identifier = some lowered) :
    lowered.KindsDistinct llir.fields ↔
      method.block.ScalarReads [analyzed.fields] method.arguments ∧ method.KindsAgree := by
  have ready := accepts_ready source accepted
  have globals := ready.lowered generated
  obtain ⟨g, c, site, found', -⟩ := ready.site generated mem
  obtain rfl := Option.some.inj (found'.symm.trans found)
  have kinds := generateMethod_kinds site.matchesScopes site.typed
  obtain ⟨declared, declares⟩ := generateMethod_fields site.matchesScopes site.typed
  obtain ⟨arguments, readyArguments⟩ := generateMethod_arguments site.matchesScopes site.typed
  have levels := block_declarations method.block site.typed 1
  rw [site.scopes] at kinds declared declares arguments
  rw [List.length_singleton] at declared declares arguments
  have fields : (generateMethod g method).1.fields = method.arguments.map (IrField.llirField 1) ++
      (generateMethod g method).1.blocks.flatMap LlirBlock.fields := by
    rw [LlirMethod.fields, ← arguments]
    rfl
  have entries (field : LlirField) (inside : field ∈ llir.fields ++ (generateMethod g method).1.fields) :
      field.IsTemporary ∨ (∃ global ∈ analyzed.fields, field = global.llirField 0) ∨
        ∃ entry ∈ method.declarations, 0 < entry.2 ∧ entry.1.Ready ∧ field = entry.1.llirField entry.2 := by
    rcases List.mem_append.mp inside with inside | inside
    · rw [globals.fields] at inside
      obtain ⟨global, mem, rfl⟩ := List.mem_map.mp inside
      exact .inr (.inl ⟨global, mem, rfl⟩)
    · rw [fields] at inside
      rcases List.mem_append.mp inside with inside | inside
      · obtain ⟨argument, mem, rfl⟩ := List.mem_map.mp inside
        exact .inr (.inr ⟨(argument, 1), List.mem_append_left _ (List.mem_map_of_mem mem), Nat.one_pos,
          readyArguments argument mem, rfl⟩)
      · rcases declared field inside with temporary | ⟨entry, mem, same⟩
        · exact .inl temporary
        · exact .inr (.inr ⟨entry, List.mem_append_right _ mem, (levels entry mem).1, (levels entry mem).2, same⟩)
  have stored (entry : IrField × Nat) (inside : entry ∈ method.declarations) :
      entry.1.llirField entry.2 ∈ llir.fields ++ (generateMethod g method).1.fields ∧ entry.1.Ready := by
    rw [fields]
    rcases List.mem_append.mp inside with inside | inside
    · obtain ⟨argument, mem, rfl⟩ := List.mem_map.mp inside
      exact ⟨List.mem_append_right _ (List.mem_append_left _ (List.mem_map_of_mem mem)), readyArguments argument mem⟩
    · exact ⟨List.mem_append_right _ (List.mem_append_right _ (declares entry inside)), (levels entry inside).2⟩
  have identifier (global : IrField) (mem : global ∈ analyzed.fields) : IsIdentifier global.identifier :=
    (ready.typed.fields global mem).identifier
  constructor
  · intro distinct
    refine ⟨kinds.mp distinct.blocks, fun entry inside entry' inside' same level => ?_⟩
    refine distinct.names _ (stored entry inside).1 _ (stored entry' inside').1 ?_
    rw [level]
    simp only [IrField.llirField, llirFieldNew, same]
  · rintro ⟨reads, agree⟩
    refine ⟨kinds.mpr reads, fun field inside field' inside' same => ?_⟩
    rcases entries field inside with temporary | ⟨global, mem, rfl⟩ | ⟨entry, mem, positive, name, rfl⟩ <;>
      rcases entries field' inside' with temporary' | ⟨global', mem', rfl⟩ | ⟨entry', mem', positive', name', rfl⟩
    · exact temporary.1.trans temporary'.1.symm
    · exact absurd (same ▸ temporary.2) (llirField_not_temporaryName (identifier global' mem') 0 0)
    · exact absurd (same ▸ temporary.2) (llirField_not_temporaryName name'.identifier entry'.2 0)
    · exact absurd (same ▸ temporary'.2) (llirField_not_temporaryName (identifier global mem) 0 0)
    · have equal : global = global' := List.inj_on_of_nodup_map ready.globals_distinct mem mem' same
      rw [equal]
    · exact absurd (storage_inj (identifier global mem) name'.identifier same).1 (by omega)
    · exact absurd (same ▸ temporary'.2) (llirField_not_temporaryName name.identifier entry.2 0)
    · exact absurd (storage_inj name.identifier (identifier global' mem') same).1 (by omega)
    · obtain ⟨level, name⟩ := storage_inj name.identifier name'.identifier same
      exact agree entry mem entry' mem' name level

/-- `import print; int a[1]; void main() { print(a); }` -/
def arrayArgument : IrProgram where
  imports := [{ imported := true, returnType := .int, identifier := "print", arguments := [], block := .mk [] .nil }]
  fields := [{
    node := 0, type := .intArray, constant := false, identifier := "a", arrayLength := 1
    lengthToken := some ⟨false, ['1']⟩, initializer := none }]
  methods := [{
    imported := false, returnType := .void, identifier := "main", arguments := []
    block := .mk [] (.cons (.methodCall "print" (.expression (.location (.scalar 1 "a")) .nil)) .nil) }]

def arrayArgumentLlir : Llir := (generateLlir (semanticsAnalyze arrayArgument).2).1

def arrayArgumentMain : IrMethod := (semanticsAnalyze arrayArgument).2.methods.get ⟨0, by decide +kernel⟩

def arrayArgumentLowered : LlirMethod := (arrayArgumentLlir.method arrayArgumentMain.identifier).getD ⟨"", [], []⟩

private theorem arrayArgument_generated : arrayArgument.FromSource ∧
    Accepts arrayArgument (semanticsAnalyze arrayArgument).2 ∧
    llirGeneratorGenerateLlir (semanticsAnalyze arrayArgument).2 = some arrayArgumentLlir ∧
    arrayArgumentLlir.method arrayArgumentMain.identifier = some arrayArgumentLowered :=
  ⟨by decide +kernel, Prod.ext (by decide +kernel) rfl, by decide +kernel, by decide +kernel⟩

theorem accepts_kindsDistinct_iff_arrayArgument : arrayArgumentLowered.KindsDistinct arrayArgumentLlir.fields ↔
    arrayArgumentMain.block.ScalarReads [(semanticsAnalyze arrayArgument).2.fields] arrayArgumentMain.arguments ∧
      arrayArgumentMain.KindsAgree :=
  accepts_kindsDistinct_iff arrayArgument_generated.1 arrayArgument_generated.2.1 arrayArgument_generated.2.2.1
    (List.get_mem _ _) arrayArgument_generated.2.2.2

/-- The array is moved into the argument like a scalar. -/
theorem arrayArgument_confused : arrayArgument.FromSource ∧
    Accepts arrayArgument (semanticsAnalyze arrayArgument).2 ∧
    llirGeneratorGenerateLlir (semanticsAnalyze arrayArgument).2 = some arrayArgumentLlir ∧
    arrayArgumentLowered ∈ arrayArgumentLlir.methods ∧
    ¬ arrayArgumentLowered.KindsDistinct arrayArgumentLlir.fields := by
  refine ⟨arrayArgument_generated.1, arrayArgument_generated.2.1, arrayArgument_generated.2.2.1,
    List.mem_of_find?_eq_some arrayArgument_generated.2.2.2, fun distinct => ?_⟩
  obtain ⟨source, destination, moved, array⟩ : ∃ source destination,
      (arrayArgumentLowered.blocks.head?.bind fun block => block.assignments.head?) =
        some (.unary .move (.field source) destination) ∧ source.isArray = true :=
    ⟨arrayArgumentLlir.fields.get ⟨0, by decide +kernel⟩, arrayArgumentLowered.fields.get ⟨1, by decide +kernel⟩,
      by decide +kernel, by decide +kernel⟩
  obtain ⟨block, head, first⟩ := Option.bind_eq_some_iff.mp moved
  have right := (distinct.blocks block (List.mem_of_mem_head? head)).assignments _ (List.mem_of_mem_head? first)
  exact absurd (right.1.symm.trans array) (by decide)

end Roast
