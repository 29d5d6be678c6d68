import Roast.Assembly.LlirGenerator

/-! The generator only adds code: the blocks of a method begin with what every earlier stage has emitted,
temporaries are never numbered again, and a failure stays. -/
namespace Roast
open LlirGenerator

def LlirGenerator.layout (g : LlirGenerator) : List LlirBlock := g.blocks ++ [g.currentBlock]

def LlirGenerator.ids (g : LlirGenerator) : List Nat := g.layout.map LlirBlock.id

structure LlirBlock.Extends (start block : LlirBlock) : Prop where
  id : block.id = start.id
  assignments : start.assignments <+: block.assignments
  fields : start.fields <+: block.fields

theorem LlirBlock.Extends.refl (block : LlirBlock) : block.Extends block := ⟨rfl, List.prefix_rfl, List.prefix_rfl⟩

theorem LlirBlock.Extends.trans {first second third : LlirBlock} (h : first.Extends second)
    (h' : second.Extends third) : first.Extends third :=
  ⟨h'.id.trans h.id, h.assignments.trans h'.assignments, h.fields.trans h'.fields⟩

def LlirGenerator.Begins (g : LlirGenerator) (blocks : List LlirBlock) : Prop :=
  ∃ current rest, blocks = g.blocks ++ current :: rest ∧ g.currentBlock.Extends current

theorem LlirGenerator.Begins.refl (g : LlirGenerator) : g.Begins g.layout :=
  ⟨g.currentBlock, [], rfl, .refl _⟩

theorem LlirGenerator.Begins.trans {g g' : LlirGenerator} {blocks : List LlirBlock} (h : g.Begins g'.layout)
    (h' : g'.Begins blocks) : g.Begins blocks := by
  obtain ⟨current, rest, layout, growth⟩ := h
  obtain ⟨current', rest', rfl, growth'⟩ := h'
  obtain rfl | ⟨front, last, rfl⟩ := rest.eq_nil_or_concat
  · obtain ⟨same, last⟩ := List.append_inj' layout rfl
    obtain rfl := List.singleton_inj.mp last
    exact ⟨current', rest', by rw [same], growth.trans growth'⟩
  · have split : g'.blocks ++ [g'.currentBlock] = (g.blocks ++ current :: front) ++ [last] := by
      rw [← LlirGenerator.layout, layout, List.concat_eq_append, List.append_assoc, List.cons_append]
    obtain ⟨same, -⟩ := List.append_inj' split rfl
    exact ⟨current, front ++ current' :: rest', by rw [same, List.append_assoc, List.cons_append], growth⟩

/-- From `g` to `g'` code is only added; a failure is not forgotten. -/
structure LlirGenerator.Grows (g g' : LlirGenerator) : Prop where
  begins : g.Begins g'.layout
  temporaryCounter : g.temporaryCounter ≤ g'.temporaryCounter
  failed : g.failed = true → g'.failed = true
  writes : g.writes ⊆ g'.writes

namespace LlirGenerator.Grows
variable {g g' g'' : LlirGenerator}

theorem refl (g : LlirGenerator) : g.Grows g := ⟨.refl g, le_rfl, id, fun _ => id⟩

theorem trans (h : g.Grows g') (h' : g'.Grows g'') : g.Grows g'' :=
  ⟨h.begins.trans h'.begins, h.temporaryCounter.trans h'.temporaryCounter, h'.failed ∘ h.failed,
    fun _ mem => h'.writes (h.writes mem)⟩

/-- Blocks that are laid out stay laid out. -/
theorem mem_ids (h : g.Grows g') {id : Nat} (mem : id ∈ g.ids) : id ∈ g'.ids := by
  obtain ⟨current, rest, layout, growth⟩ := h.begins
  rw [LlirGenerator.ids, layout]
  simp only [LlirGenerator.ids, LlirGenerator.layout, List.map_append, List.map_cons, List.mem_append,
    List.mem_cons, growth.id] at mem ⊢
  simp only [List.map_nil, List.not_mem_nil, or_false] at mem
  tauto

/-- The blocks begin with all earlier stages. -/
theorem begins_of (h : g.Grows g') {blocks : List LlirBlock} (begins : g'.Begins blocks) : g.Begins blocks :=
  h.begins.trans begins

theorem of_same (blocks : g'.blocks = g.blocks) (currentBlock : g.currentBlock.Extends g'.currentBlock)
    (temporaryCounter : g.temporaryCounter ≤ g'.temporaryCounter) (failed : g.failed = true → g'.failed = true)
    (writes : g.writes ⊆ g'.writes) : g.Grows g' :=
  ⟨⟨g'.currentBlock, [], by rw [LlirGenerator.layout, blocks], currentBlock⟩, temporaryCounter, failed, writes⟩

theorem succeeds (h : g.Grows g') (succeeds : g'.failed = false) : g.failed = false := by
  by_contra failed
  simp [h.failed (by simpa using failed)] at succeeds

end LlirGenerator.Grows

section
variable (g : LlirGenerator)

theorem assert_grows (condition : Prop) [Decidable condition] : g.Grows (g.assert condition) := by
  unfold LlirGenerator.assert
  split
  · exact .refl g
  · exact .of_same rfl (.refl _) le_rfl (fun _ => rfl) (fun _ => id)

theorem addAssignment_grows (assignment : LlirAssignment) : g.Grows (g.addAssignment assignment) :=
  .of_same rfl ⟨rfl, List.prefix_append _ _, List.prefix_rfl⟩ le_rfl id (fun _ => id)

theorem addMove_grows (source : LlirOperand) (destination : LlirField) : g.Grows (g.addMove source destination) :=
  addAssignment_grows g _

theorem addField_grows (field : LlirField) : g.Grows (g.addField field) :=
  .of_same rfl ⟨rfl, List.prefix_rfl, List.prefix_append _ _⟩ le_rfl id (fun _ => id)

private theorem exit_grows (exit : Option Nat × Nat) : g.Grows { g with exits := g.exits ++ [exit] } :=
  .of_same rfl (.refl _) le_rfl id (fun _ => id)

private theorem newTemporary_grows (character : Char) : g.Grows (g.newTemporary character).2 :=
  .of_same rfl ⟨rfl, List.prefix_rfl, List.prefix_append _ _⟩ (Nat.le_succ _) id (fun _ => id)

theorem newLocalTemporary_grows : g.Grows g.newLocalTemporary.2 := newTemporary_grows g '$'

theorem newNonLocalTemporary_grows : g.Grows g.newNonLocalTemporary.2 := newTemporary_grows g '#'

theorem newBlock_grows : g.Grows g.newBlock.2 := .of_same rfl (.refl _) le_rfl id (fun _ => id)

theorem close_grows (terminal : LlirTerminal) (next : Nat) : g.Grows ((g.setTerminal terminal).nextBlock next) :=
  ⟨⟨{ g.currentBlock with terminal := terminal }, [llirBlockNew next],
    by simp [LlirGenerator.layout, LlirGenerator.nextBlock, LlirGenerator.setTerminal], rfl, List.prefix_rfl, List.prefix_rfl⟩,
    le_rfl, id, fun _ => id⟩

theorem jumpTo_grows (target next : Nat) : g.Grows (g.jumpTo target next) := close_grows g _ _

theorem branchTo_grows (branch : LlirBranch) : g.Grows (g.branchTo branch) := close_grows g _ _

theorem branchNew_grows (type : LlirBranchType) (unsignedComparison : Bool) (left right : LlirOperand) :
    g.Grows (g.branchNew type unsignedComparison left right).2 :=
  ((newBlock_grows g).trans (newBlock_grows _)).trans (branchTo_grows _ _)

/-- A block that control leaves for no block that follows. -/
theorem leave_grows (terminal : LlirTerminal) :
    g.Grows (((g.setTerminal terminal).newBlock.2).nextBlock (g.setTerminal terminal).newBlock.1) :=
  (newBlock_grows g).trans (close_grows _ terminal _)

theorem lookup_grows (location : IrLocation) : g.Grows (g.lookup location).2 := by
  unfold LlirGenerator.lookup
  split
  · exact .of_same rfl (.refl _) le_rfl id (fun _ => id)
  · exact .of_same rfl (.refl _) le_rfl (fun _ => rfl) (fun _ => id)

private theorem pushLoop_grows (breakBlock continueBlock : Nat) : g.Grows (g.pushLoop breakBlock continueBlock) :=
  .of_same rfl (.refl _) le_rfl id (fun _ => id)

theorem popLoop_grows : g.Grows g.popLoop :=
  (assert_grows g _).trans (.of_same rfl (.refl _) le_rfl id (fun _ => id))

private theorem generateLiteral_grows (literal : IrLiteral) : g.Grows (generateLiteral g literal).2 :=
  ((assert_grows g _).trans (newLocalTemporary_grows _)).trans (addMove_grows _ _ _)

end

mutual

/-- Lowering an expression only adds to the blocks. -/
theorem generateExpression_grows (g : LlirGenerator) (expression : IrExpression) :
    g.Grows (generateExpression g expression).2 := by
  cases expression with
  | binary operator left right =>
    unfold generateExpression
    split
    · have first := ((newNonLocalTemporary_grows g).trans (generateExpression_grows _ left)).trans
        (addMove_grows _ (generateExpression g.newNonLocalTemporary.2 left).1 g.newNonLocalTemporary.1)
      have second := first.trans (branchNew_grows _ (if operator = .or then .equal else .notEqual) false
        (generateExpression g.newNonLocalTemporary.2 left).1 (.literal 1))
      exact ((second.trans (generateExpression_grows _ right)).trans (addMove_grows _ _ _)).trans (jumpTo_grows _ _ _)
    · exact (((generateExpression_grows g left).trans (generateExpression_grows _ right)).trans
        (newLocalTemporary_grows _)).trans (addAssignment_grows _ _)
  | not expression =>
    exact ((generateExpression_grows g expression).trans (newLocalTemporary_grows _)).trans (addAssignment_grows _ _)
  | negate expression =>
    exact ((generateExpression_grows g expression).trans (newLocalTemporary_grows _)).trans (addAssignment_grows _ _)
  | len identifier length => exact (newLocalTemporary_grows g).trans (addMove_grows _ _ _)
  | methodCall identifier arguments =>
    exact ((newLocalTemporary_grows g).trans (generateArguments_grows _ arguments)).trans (addAssignment_grows _ _)
  | literal literal => exact generateLiteral_grows g literal
  | location location => exact generateLocation_grows g location

private theorem generateLocation_grows (g : LlirGenerator) (location : IrLocation) :
    g.Grows (generateLocation g location).2 := by
  cases location with
  | scalar node identifier =>
    exact ((lookup_grows g (.scalar node identifier)).trans (newLocalTemporary_grows _)).trans (addMove_grows _ _ _)
  | element node identifier index =>
    exact (((lookup_grows g (.element node identifier index)).trans (newLocalTemporary_grows _)).trans
      (generateExpression_grows _ index)).trans (addAssignment_grows _ _)

theorem generateArguments_grows (g : LlirGenerator) (arguments : IrArguments) :
    g.Grows (generateArguments g arguments).2 := by
  cases arguments with
  | nil => exact .refl g
  | string string rest => exact generateArguments_grows g rest
  | expression expression rest =>
    exact (generateExpression_grows g expression).trans (generateArguments_grows _ rest)

end

private theorem generateMethodCall_grows (g : LlirGenerator) (identifier : String) (arguments : IrArguments) :
    g.Grows (generateMethodCall g identifier arguments).2 :=
  ((newLocalTemporary_grows g).trans (generateArguments_grows _ arguments)).trans (addAssignment_grows _ _)

theorem generateBoundsCheck_grows (g : LlirGenerator) (index : LlirOperand) (length : Word) :
    g.Grows (generateBoundsCheck g index length) :=
  (branchNew_grows g .less true index (.literal length)).trans (close_grows _ _ _)

theorem addRead_grows (g : LlirGenerator) (field destination : LlirField) (index : Option LlirOperand) :
    g.Grows (g.addRead field destination index) := by
  cases index <;> exact addAssignment_grows g _

theorem addWrite_grows (g : LlirGenerator) (field : LlirField) (source : LlirOperand) (index : Option LlirOperand) :
    g.Grows (g.addWrite field source index) := by
  have h := addAssignment_grows g (index.elim (.unary .move source field) (.arrayUpdate · source field))
  cases index <;> exact ⟨h.begins, h.temporaryCounter, h.failed, fun _ => List.mem_append_left _⟩

theorem generateAssignmentWrite_grows (g : LlirGenerator) (assignOperator : IrAssignOperator) (field : LlirField)
    (index : Option LlirOperand) (source : LlirOperand) :
    g.Grows (generateAssignmentWrite g assignOperator field index source) := by
  unfold generateAssignmentWrite
  split
  · exact addWrite_grows g _ _ _
  · exact ((((newLocalTemporary_grows g).trans (addRead_grows _ _ _ _)).trans (newLocalTemporary_grows _)).trans
      (addAssignment_grows _ _)).trans (addWrite_grows _ _ _ _)

theorem generateSource_grows (g : LlirGenerator) (source : Option IrExpression) :
    g.Grows (generateSource g source).2 := by
  cases source with
  | none => exact .refl g
  | some expression => exact generateExpression_grows g expression

theorem generateAssignmentIndex_grows (g : LlirGenerator) (field : LlirField) (location : IrLocation) :
    g.Grows (generateAssignmentIndex g field location).2 := by
  cases location with
  | scalar node identifier => exact .refl g
  | element node identifier index =>
    exact (generateExpression_grows g index).trans (generateBoundsCheck_grows _ _ _)

private theorem generateAssignment_grows (g : LlirGenerator) (assignment : IrAssignment) :
    g.Grows (generateAssignment g assignment) :=
  (((lookup_grows g assignment.location).trans (generateAssignmentIndex_grows _ _ _)).trans
    (generateSource_grows _ _)).trans (generateAssignmentWrite_grows _ _ _ _ _)

theorem generateForUpdate_grows (g : LlirGenerator) (update : IrForUpdate) : g.Grows (generateForUpdate g update) := by
  cases update with
  | methodCall identifier arguments => exact generateMethodCall_grows g identifier arguments
  | assignment assignment => exact generateAssignment_grows g assignment

theorem foldl_addAssignment_grows (assignments : List LlirAssignment) (g : LlirGenerator) :
    g.Grows (assignments.foldl addAssignment g) := by
  induction assignments generalizing g with
  | nil => exact .refl g
  | cons assignment rest ih => exact (addAssignment_grows g assignment).trans (ih _)

theorem generateField_grows (g : LlirGenerator) (field : IrField) : g.Grows (generateField g field).2 :=
  (assert_grows g (InitializerFits field.initializer _)).trans (.of_same rfl (.refl _) le_rfl id (fun _ => id))

private theorem generateFieldInitialization_grows (g : LlirGenerator) (field : LlirField) :
    g.Grows (generateFieldInitialization g field) := by
  unfold generateFieldInitialization
  split
  · exact (assert_grows g _).trans (foldl_addAssignment_grows _ _)
  · exact addMove_grows g _ _

private theorem generateBlockField_grows (g : LlirGenerator) (field : IrField) : g.Grows (generateBlockField g field) :=
  ((generateField_grows g field).trans (addField_grows _ (generateField g field).1)).trans
    (generateFieldInitialization_grows _ _)

theorem generateBlockFields_grows (fields : List IrField) (g : LlirGenerator) :
    g.Grows (fields.foldl generateBlockField g) := by
  induction fields generalizing g with
  | nil => exact .refl g
  | cons field rest ih => exact (generateBlockField_grows g field).trans (ih _)

private theorem generateReturnStatement_grows (g : LlirGenerator) (expression : Option IrExpression) :
    g.Grows (generateReturnStatement g expression) := by
  have value : g.Grows (generateReturnValue g expression).2 := by
    cases expression with
    | none => exact .refl g
    | some expression => exact generateExpression_grows g expression
  exact value.trans (leave_grows _ (.llirReturn (generateReturnValue g expression).1))

private theorem generateBreakStatement_grows (g : LlirGenerator) (loop : Option (Nat × Nat)) :
    g.Grows (generateBreakStatement g loop) :=
  ((assert_grows g (g.breakBlocks ≠ [])).trans (exit_grows _ (loop.map Prod.fst, g.breakBlocks.headD 0))).trans
    (leave_grows _ (.jump (g.breakBlocks.headD 0)))

private theorem generateContinueStatement_grows (g : LlirGenerator) (loop : Option (Nat × Nat)) :
    g.Grows (generateContinueStatement g loop) :=
  ((assert_grows g (g.continueBlocks ≠ [])).trans (exit_grows _ (loop.map Prod.snd, g.continueBlocks.headD 0))).trans
    (leave_grows _ (.jump (g.continueBlocks.headD 0)))

/-- A loop up to its first branch. -/
private theorem loopHead_grows (g : LlirGenerator) (condition : IrExpression)
    (conditionBlock loopBlock endBlock continueBlock : Nat) :
    let entered := (g.pushLoop endBlock continueBlock).jumpTo conditionBlock conditionBlock
    g.Grows ((generateExpression entered condition).2.branchTo
      ⟨.equal, false, (generateExpression entered condition).1, .literal 0, loopBlock, endBlock⟩) :=
  (((pushLoop_grows g _ _).trans (jumpTo_grows _ _ _)).trans (generateExpression_grows _ _)).trans
    (branchTo_grows _ _)

mutual

/-- Lowering a statement only adds to the blocks. -/
private theorem generateStatement_grows (g : LlirGenerator) (loop : Option (Nat × Nat)) (statement : IrStatement) :
    g.Grows (generateStatement g loop statement) := by
  cases statement with
  | assignment assignment => exact generateAssignment_grows g assignment
  | methodCall identifier arguments => exact generateMethodCall_grows g identifier arguments
  | ifStatement condition ifBlock =>
    have first := (generateExpression_grows g condition).trans (branchNew_grows _ .equal false
      (generateExpression g condition).1 (.literal 0))
    exact (first.trans (generateBlock_grows _ loop true ifBlock)).trans (jumpTo_grows _ _ _)
  | ifElseStatement condition ifBlock elseBlock =>
    have first := (generateExpression_grows g condition).trans (branchNew_grows _ .equal false
      (generateExpression g condition).1 (.literal 0))
    have second (target next : Nat) := ((first.trans (generateBlock_grows _ loop true ifBlock)).trans
      (newBlock_grows _)).trans (jumpTo_grows _ target next)
    exact ((second _ _).trans (generateBlock_grows _ loop true elseBlock)).trans (jumpTo_grows _ _ _)
  | forStatement initial condition update block =>
    have before := (((((generateAssignment_grows g initial).trans (newBlock_grows _)).trans
      (newBlock_grows _)).trans (newBlock_grows _)).trans (newBlock_grows _))
    have body (conditionBlock loopBlock endBlock continueBlock : Nat) :=
      (before.trans (loopHead_grows _ condition conditionBlock loopBlock endBlock continueBlock)).trans
        (generateBlock_grows _ (some (endBlock, continueBlock)) true block)
    exact ((((body _ _ _ _).trans (jumpTo_grows _ _ _)).trans (generateForUpdate_grows _ update)).trans
      (jumpTo_grows _ _ _)).trans (popLoop_grows _)
  | whileStatement condition block =>
    have before := ((newBlock_grows g).trans (newBlock_grows _)).trans (newBlock_grows _)
    have body (conditionBlock loopBlock endBlock continueBlock : Nat) :=
      (before.trans (loopHead_grows _ condition conditionBlock loopBlock endBlock continueBlock)).trans
        (generateBlock_grows _ (some (endBlock, continueBlock)) true block)
    exact ((body _ _ _ _).trans (jumpTo_grows _ _ _)).trans (popLoop_grows _)
  | returnStatement expression => exact generateReturnStatement_grows g expression
  | breakStatement => exact generateBreakStatement_grows g loop
  | continueStatement => exact generateContinueStatement_grows g loop

theorem generateBlock_grows (g : LlirGenerator) (loop : Option (Nat × Nat)) (newScope : Bool) (block : IrBlock) :
    g.Grows (generateBlock g loop newScope block) := by
  cases block with
  | mk fields statements =>
    have body (g : LlirGenerator) : g.Grows (generateStatements (fields.foldl generateBlockField g) loop statements) :=
      (generateBlockFields_grows fields g).trans (generateStatements_grows _ loop statements)
    cases newScope with
    | false => exact body g
    | true =>
      have pushed : g.Grows g.symbolTablePushScope := .of_same rfl (.refl _) le_rfl id (fun _ => id)
      exact ((pushed.trans (body _)).trans (assert_grows _ _)).trans (.of_same rfl (.refl _) le_rfl id (fun _ => id))

theorem generateStatements_grows (g : LlirGenerator) (loop : Option (Nat × Nat)) (statements : IrStatements) :
    g.Grows (generateStatements g loop statements) := by
  cases statements with
  | nil => exact .refl g
  | cons statement rest =>
    exact (generateStatement_grows g loop statement).trans (generateStatements_grows _ loop rest)

end

end Roast
