import Mathlib.Data.List.Chain
import Roast.Assembly.Lowering
import Roast.Assembly.Growth

/-! The graph of blocks that the generator lays out: every block appears once, control leaves it only to
blocks of the method, a branch falls through to the block that follows, and the predecessor lists are
complete. -/
namespace Roast
open LlirGenerator

structure LlirTerminal.FallsTo (next : Nat) (terminal : LlirTerminal) : Prop where
  known : terminal ≠ .unknown
  branch : ∀ branch, terminal = .branch branch → branch.trueBlock = next

/-- The layout when the blocks `before` belong to earlier methods and the blocks `pending` are made but
not laid out yet. -/
structure LlirGenerator.Laid (before pending : List Nat) (g : LlirGenerator) : Prop where
  made : (before ++ (g.ids ++ pending)).Perm (List.range g.blockCounter)
  terminated : g.terminated = before ++ g.blocks.map LlirBlock.id
  targets : ∀ block ∈ g.blocks, ∀ target ∈ block.terminal.successors, target ∈ g.ids ++ pending
  loops : ∀ target ∈ g.breakBlocks ++ g.continueBlocks, target ∈ g.ids ++ pending
  chain : g.layout.IsChain fun block next => block.terminal.FallsTo next.id
  predecessors : g.predecessors = g.blocks.flatMap fun block =>
    block.terminal.successors.map fun target => (target, block.id)
  fields : ∀ block ∈ g.layout, ∀ field ∈ block.fields, 0 < field.valueCount
  unterminated : g.currentBlock.terminal = .unknown

namespace LlirGenerator.Laid
variable {g g' : LlirGenerator} {before pending pending' : List Nat}

theorem distinct (h : Laid before pending g) : (g.ids ++ pending).Nodup :=
  (h.made.nodup_iff.mpr List.nodup_range).of_append_right

/-- Operations on tables and counters. -/
theorem of_same (h : Laid before pending g) (blocks : g'.blocks = g.blocks)
    (currentBlock : g'.currentBlock = g.currentBlock) (predecessors : g'.predecessors = g.predecessors)
    (terminated : g'.terminated = g.terminated) (blockCounter : g'.blockCounter = g.blockCounter)
    (breakBlocks : g'.breakBlocks = g.breakBlocks)
    (continueBlocks : g'.continueBlocks = g.continueBlocks) : Laid before pending g' := by
  have layout : g'.layout = g.layout := by rw [LlirGenerator.layout, blocks, currentBlock]; rfl
  have ids : g'.ids = g.ids := congrArg (List.map LlirBlock.id) layout
  constructor
  · exact blockCounter ▸ ids ▸ h.made
  · rw [terminated, blocks, h.terminated]
  · exact blocks ▸ ids ▸ h.targets
  · exact breakBlocks ▸ continueBlocks ▸ ids ▸ h.loops
  · exact layout ▸ h.chain
  · rw [predecessors, blocks, h.predecessors]
  · exact layout ▸ h.fields
  · exact currentBlock ▸ h.unterminated

theorem perm (h : Laid before pending g) (same : pending.Perm pending') : Laid before pending' g where
  made := ((same.append_left _).append_left _).symm.trans h.made
  terminated := h.terminated
  targets block mem target mem' := (same.append_left _).mem_iff.mp (h.targets block mem target mem')
  loops target mem := (same.append_left _).mem_iff.mp (h.loops target mem)
  chain := h.chain
  predecessors := h.predecessors
  fields := h.fields
  unterminated := h.unterminated

/-- The current block grows. -/
private theorem extend (h : Laid before pending g) {current : LlirBlock} (growth : g.currentBlock.Extends current)
    (terminal : current.terminal = .unknown) (fields : ∀ field ∈ current.fields, 0 < field.valueCount) :
    Laid before pending { g with currentBlock := current } := by
  have ids : LlirGenerator.ids { g with currentBlock := current } = g.ids := by
    simp [LlirGenerator.ids, LlirGenerator.layout, growth.id]
  exact
    { made := ids ▸ h.made
      terminated := h.terminated
      targets := ids ▸ h.targets
      loops := ids ▸ h.loops
      chain := by
        have chain := h.chain
        rw [LlirGenerator.layout, List.isChain_append] at chain ⊢
        refine ⟨chain.1, .singleton _, fun block mem next mem' => ?_⟩
        obtain rfl : current = next := by simpa using mem'
        exact growth.id ▸ chain.2.2 block mem g.currentBlock (by simp)
      predecessors := h.predecessors
      fields := by
        intro block mem
        obtain mem | mem := List.mem_append.mp mem
        · exact h.fields block (List.mem_append_left _ mem)
        · exact List.mem_singleton.mp mem ▸ fields
      unterminated := terminal }

theorem assert (h : Laid before pending g) (condition : Prop) [Decidable condition] :
    Laid before pending (g.assert condition) := by
  unfold LlirGenerator.assert
  split
  · exact h
  · exact h.of_same rfl rfl rfl rfl rfl rfl rfl

theorem addAssignment (h : Laid before pending g) (assignment : LlirAssignment) :
    Laid before pending (g.addAssignment assignment) :=
  h.extend ⟨rfl, List.prefix_append _ _, List.prefix_rfl⟩ h.unterminated (h.fields g.currentBlock (by simp [LlirGenerator.layout]))

theorem addMove (h : Laid before pending g) (source : LlirOperand) (destination : LlirField) :
    Laid before pending (g.addMove source destination) := h.addAssignment _

theorem addField (h : Laid before pending g) (field : LlirField) (positive : 0 < field.valueCount) :
    Laid before pending (g.addField field) := by
  refine h.extend ⟨rfl, List.prefix_rfl, List.prefix_append _ _⟩ h.unterminated fun other mem => ?_
  obtain mem | mem := List.mem_append.mp mem
  · exact h.fields g.currentBlock (by simp [LlirGenerator.layout]) other mem
  · exact List.mem_singleton.mp mem ▸ positive

theorem newTemporary (h : Laid before pending g) (character : Char) :
    Laid before pending (g.newTemporary character).2 :=
  (h.addField (g.newTemporary character).1 Int.one_pos).of_same rfl rfl rfl rfl rfl rfl rfl

theorem newLocalTemporary (h : Laid before pending g) : Laid before pending g.newLocalTemporary.2 := h.newTemporary '$'

theorem newNonLocalTemporary (h : Laid before pending g) : Laid before pending g.newNonLocalTemporary.2 :=
  h.newTemporary '#'

theorem newBlock (h : Laid before pending g) : Laid before (g.newBlock.1 :: pending) g.newBlock.2 := by
  have weaken {id : Nat} (mem : id ∈ g.ids ++ pending) : id ∈ g.ids ++ g.blockCounter :: pending :=
    List.mem_append.mpr ((List.mem_append.mp mem).imp_right (List.mem_cons_of_mem _))
  exact
    { made := by
        have placed : (before ++ (g.ids ++ g.blockCounter :: pending)).Perm
            (before ++ (g.ids ++ pending) ++ [g.blockCounter]) := by
          rw [List.append_assoc]
          exact (List.perm_middle.trans (List.perm_append_singleton _ _).symm).append_left before
        rw [LlirGenerator.newBlock, List.range_succ]
        exact placed.trans (h.made.append_right _)
      terminated := h.terminated
      targets := fun block mem target mem' => weaken (h.targets block mem target mem')
      loops := fun target mem => weaken (h.loops target mem)
      chain := h.chain
      predecessors := h.predecessors
      fields := h.fields
      unterminated := h.unterminated }

/-- A terminal ends the current block and a pending block becomes current. -/
theorem close {next : Nat} (h : Laid before (next :: pending) g) {terminal : LlirTerminal}
    (targets : ∀ target ∈ terminal.successors, target ∈ g.ids ++ next :: pending)
    (falls : terminal.FallsTo next) : Laid before pending ((g.setTerminal terminal).nextBlock next) := by
  have ids : ((g.setTerminal terminal).nextBlock next).ids = g.ids ++ [next] := by
    simp [LlirGenerator.ids, LlirGenerator.layout, LlirGenerator.nextBlock, LlirGenerator.setTerminal, llirBlockNew]
  have placed : ((g.setTerminal terminal).nextBlock next).ids ++ pending = g.ids ++ next :: pending := by
    rw [ids, List.append_assoc, List.singleton_append]
  exact
    { made := placed ▸ h.made
      terminated := by
        simp [LlirGenerator.nextBlock, LlirGenerator.setTerminal, h.terminated]
      targets := fun block mem => by
        rw [placed]
        obtain mem | mem := List.mem_append.mp mem
        · exact h.targets block mem
        · exact List.mem_singleton.mp mem ▸ targets
      loops := placed ▸ h.loops
      chain := by
        have chain := List.isChain_append.mp h.chain
        have closed : (g.blocks ++ [(g.setTerminal terminal).currentBlock]).IsChain
            fun block next => block.terminal.FallsTo next.id :=
          chain.1.append (.singleton _) fun block mem next mem' => by
            obtain rfl : (g.setTerminal terminal).currentBlock = next := by simpa using mem'
            exact chain.2.2 block mem g.currentBlock (by simp)
        refine closed.append (.singleton _) fun block mem other mem' => ?_
        obtain rfl : (g.setTerminal terminal).currentBlock = block := by simpa using mem
        obtain rfl : ((g.setTerminal terminal).nextBlock next).currentBlock = other := by simpa using mem'
        exact falls
      predecessors := by
        simp [LlirGenerator.nextBlock, LlirGenerator.setTerminal, h.predecessors]
      fields := fun block mem => by
        obtain mem | mem := List.mem_append.mp mem
        · obtain mem | mem := List.mem_append.mp mem
          · exact h.fields block (List.mem_append_left _ mem)
          · exact List.mem_singleton.mp mem ▸ h.fields g.currentBlock (by simp [LlirGenerator.layout])
        · rw [List.mem_singleton.mp mem]
          simp [LlirGenerator.nextBlock, llirBlockNew]
      unterminated := rfl }

theorem jumpTo {target next : Nat} (h : Laid before (next :: pending) g)
    (mem : target ∈ g.ids ++ next :: pending) : Laid before pending (g.jumpTo target next) :=
  h.close (fun other mem' => List.mem_singleton.mp mem' ▸ mem) ⟨by simp, by simp⟩

private theorem jumpNext {next : Nat} (h : Laid before (next :: pending) g) :
    Laid before pending (g.jumpTo next next) :=
  h.jumpTo (by simp)

theorem branchTo (branch : LlirBranch) (h : Laid before (branch.trueBlock :: pending) g)
    (mem : branch.falseBlock ∈ g.ids ++ pending) : Laid before pending (g.branchTo branch) := by
  refine h.close (fun target mem' => ?_) ⟨by simp, by simp⟩
  obtain rfl | mem' := List.mem_cons.mp mem'
  · simp
  · obtain rfl := List.mem_singleton.mp mem'
    exact List.mem_append.mpr ((List.mem_append.mp mem).imp_right (List.mem_cons_of_mem _))

theorem branchNew (h : Laid before pending g) (type : LlirBranchType) (unsignedComparison : Bool)
    (left right : LlirOperand) : Laid before ((g.branchNew type unsignedComparison left right).1 :: pending)
      (g.branchNew type unsignedComparison left right).2 :=
  LlirGenerator.Laid.branchTo ⟨type, unsignedComparison, left, right, g.newBlock.1, g.newBlock.2.newBlock.1⟩
    (h.newBlock.newBlock.perm (.swap _ _ _)) (List.mem_append_right _ (List.mem_cons_self ..))

/-- A block that control leaves for no other block. -/
theorem leave (h : Laid before pending g) (terminal : LlirTerminal) (known : terminal ≠ .unknown)
    (successors : ∀ target ∈ terminal.successors, target ∈ g.ids ++ pending)
    (jumps : ∀ branch, terminal ≠ .branch branch) :
    Laid before pending (((g.setTerminal terminal).newBlock.2).nextBlock (g.setTerminal terminal).newBlock.1) := by
  have same : ((g.setTerminal terminal).newBlock.2).nextBlock (g.setTerminal terminal).newBlock.1 =
      (g.newBlock.2.setTerminal terminal).nextBlock g.newBlock.1 := rfl
  rw [same]
  refine h.newBlock.close (fun target mem => ?_) ⟨known, fun branch same => absurd same (jumps branch)⟩
  exact List.mem_append.mpr ((List.mem_append.mp (successors target mem)).imp_right (List.mem_cons_of_mem _))

end LlirGenerator.Laid

namespace LlirGenerator.Laid
variable {g g' : LlirGenerator} {before pending pending' : List Nat}

theorem pushLoop (h : Laid before pending g) {breakBlock continueBlock : Nat}
    (hBreak : breakBlock ∈ g.ids ++ pending) (hContinue : continueBlock ∈ g.ids ++ pending) :
    Laid before pending (g.pushLoop breakBlock continueBlock) where
  made := h.made
  terminated := h.terminated
  targets := h.targets
  loops target mem := by
    have loops := h.loops target
    simp only [LlirGenerator.pushLoop, List.cons_append, List.mem_cons, List.mem_append] at mem loops
    obtain rfl | mem | rfl | mem := mem
    · exact hBreak
    · exact List.mem_append.mpr (loops (.inl mem))
    · exact hContinue
    · exact List.mem_append.mpr (loops (.inr mem))
  chain := h.chain
  predecessors := h.predecessors
  fields := h.fields
  unterminated := h.unterminated

theorem popLoop (h : Laid before pending g) : Laid before pending g.popLoop := by
  have loops (target : Nat) (mem : target ∈ g.breakBlocks.tail ++ g.continueBlocks.tail) :
      target ∈ g.ids ++ pending :=
    h.loops target (List.mem_append.mpr ((List.mem_append.mp mem).imp List.mem_of_mem_tail List.mem_of_mem_tail))
  unfold LlirGenerator.popLoop LlirGenerator.assert
  split
  · exact { h with loops := loops }
  · exact { h with loops := loops }

end LlirGenerator.Laid

section
variable {before pending : List Nat}

private theorem generateLiteral_laid {g : LlirGenerator} (h : Laid before pending g) (literal : IrLiteral) :
    Laid before pending (generateLiteral g literal).2 :=
  (h.assert _).newLocalTemporary.addMove _ _

private theorem lookup_laid {g : LlirGenerator} (h : Laid before pending g) (location : IrLocation) :
    Laid before pending (g.lookup location).2 := by
  unfold LlirGenerator.lookup
  split
  · exact h.of_same rfl rfl rfl rfl rfl rfl rfl
  · exact h.of_same rfl rfl rfl rfl rfl rfl rfl

mutual

/-- Lowering an expression keeps the layout. -/
private theorem generateExpression_laid {before pending : List Nat} (g : LlirGenerator) (expression : IrExpression)
    (h : Laid before pending g) :
    Laid before pending (generateExpression g expression).2 := by
  cases expression with
  | binary operator left right =>
    unfold generateExpression
    split
    · have first := (generateExpression_laid _ left h.newNonLocalTemporary).addMove
        (generateExpression g.newNonLocalTemporary.2 left).1 g.newNonLocalTemporary.1
      have second := first.branchNew (if operator = .or then .equal else .notEqual) false
        (generateExpression g.newNonLocalTemporary.2 left).1 (.literal 1)
      exact (generateExpression_laid _ right second).addMove _ _ |>.jumpNext
    · exact (generateExpression_laid _ right (generateExpression_laid g left h)).newLocalTemporary.addAssignment _
  | not expression => exact (generateExpression_laid g expression h).newLocalTemporary.addAssignment _
  | negate expression => exact (generateExpression_laid g expression h).newLocalTemporary.addAssignment _
  | len identifier length => exact h.newLocalTemporary.addMove _ _
  | methodCall identifier arguments =>
    exact (generateArguments_laid _ arguments h.newLocalTemporary).addAssignment _
  | literal literal => exact generateLiteral_laid h literal
  | location location => exact generateLocation_laid g location h

private theorem generateLocation_laid {before pending : List Nat} (g : LlirGenerator) (location : IrLocation)
    (h : Laid before pending g) :
    Laid before pending (generateLocation g location).2 := by
  cases location with
  | scalar node identifier => exact (lookup_laid h _).newLocalTemporary.addMove _ _
  | element node identifier index =>
    exact (generateExpression_laid _ index
      (lookup_laid h (.element node identifier index)).newLocalTemporary).addAssignment _

private theorem generateArguments_laid {before pending : List Nat} (g : LlirGenerator) (arguments : IrArguments)
    (h : Laid before pending g) :
    Laid before pending (generateArguments g arguments).2 := by
  cases arguments with
  | nil => exact h
  | string string rest => exact generateArguments_laid g rest h
  | expression expression rest =>
    exact generateArguments_laid _ rest (generateExpression_laid g expression h)

end

private theorem generateMethodCall_laid (g : LlirGenerator) (identifier : String) (arguments : IrArguments)
    (h : Laid before pending g) : Laid before pending (generateMethodCall g identifier arguments).2 :=
  (generateArguments_laid _ arguments h.newLocalTemporary).addAssignment _

private theorem generateBoundsCheck_laid {g : LlirGenerator} (h : Laid before pending g) (index : LlirOperand)
    (length : Word) : Laid before pending (generateBoundsCheck g index length) :=
  (h.branchNew .less true index (.literal length)).close (by simp [LlirTerminal.successors]) ⟨by simp, by simp⟩

private theorem addRead_laid {g : LlirGenerator} (h : Laid before pending g) (field destination : LlirField)
    (index : Option LlirOperand) : Laid before pending (g.addRead field destination index) := by
  cases index <;> exact h.addAssignment _

private theorem addWrite_laid {g : LlirGenerator} (h : Laid before pending g) (field : LlirField) (source : LlirOperand)
    (index : Option LlirOperand) : Laid before pending (g.addWrite field source index) := by
  have added := h.addAssignment (index.elim (.unary .move source field) (.arrayUpdate · source field))
  cases index <;> exact added.of_same rfl rfl rfl rfl rfl rfl rfl

private theorem generateAssignmentWrite_laid {g : LlirGenerator} (h : Laid before pending g)
    (assignOperator : IrAssignOperator) (field : LlirField) (index : Option LlirOperand) (source : LlirOperand) :
    Laid before pending (generateAssignmentWrite g assignOperator field index source) := by
  unfold generateAssignmentWrite
  split
  · exact addWrite_laid h _ _ _
  · exact addWrite_laid ((addRead_laid h.newLocalTemporary _ _ _).newLocalTemporary.addAssignment _) _ _ _

private theorem generateSource_laid {g : LlirGenerator} (h : Laid before pending g) (source : Option IrExpression) :
    Laid before pending (generateSource g source).2 := by
  cases source with
  | none => exact h
  | some expression => exact generateExpression_laid g expression h

private theorem generateAssignmentIndex_laid {g : LlirGenerator} (h : Laid before pending g) (field : LlirField)
    (location : IrLocation) : Laid before pending (generateAssignmentIndex g field location).2 := by
  cases location with
  | scalar node identifier => exact h
  | element node identifier index => exact generateBoundsCheck_laid (generateExpression_laid g index h) _ _

private theorem generateAssignment_laid {g : LlirGenerator} (h : Laid before pending g) (assignment : IrAssignment) :
    Laid before pending (generateAssignment g assignment) :=
  generateAssignmentWrite_laid (generateSource_laid (generateAssignmentIndex_laid (lookup_laid h _) _ _) _) _ _ _ _

private theorem generateForUpdate_laid {g : LlirGenerator} (h : Laid before pending g) (update : IrForUpdate) :
    Laid before pending (generateForUpdate g update) := by
  cases update with
  | methodCall identifier arguments => exact generateMethodCall_laid g identifier arguments h
  | assignment assignment => exact generateAssignment_laid h assignment

end

section
variable {returnType : IrDataType}

private theorem foldl_addAssignment_laid {before pending : List Nat} (assignments : List LlirAssignment)
    {g : LlirGenerator}
    (h : Laid before pending g) : Laid before pending (assignments.foldl addAssignment g) := by
  induction assignments generalizing g with
  | nil => exact h
  | cons assignment rest ih => exact ih (h.addAssignment assignment)

private theorem generateBlockField_laid {before pending : List Nat} {g : LlirGenerator} (h : Laid before pending g)
    {field : IrField} (positive : 0 < field.arrayLength) : Laid before pending (generateBlockField g field) := by
  have declared : Laid before pending (generateField g field).2 :=
    (h.assert (InitializerFits field.initializer _)).of_same rfl rfl rfl rfl rfl rfl rfl
  have added : Laid before pending ((generateField g field).2.addField (generateField g field).1) :=
    declared.addField _ positive
  unfold generateBlockField
  dsimp only
  unfold generateFieldInitialization
  split
  · exact foldl_addAssignment_laid _ (added.assert _)
  · exact added.addMove _ _

private theorem generateBlockFields_laid {before pending : List Nat} {fields : List IrField} {g : LlirGenerator}
    (h : Laid before pending g) (positive : ∀ field ∈ fields, 0 < field.arrayLength) :
    Laid before pending (fields.foldl generateBlockField g) := by
  induction fields generalizing g with
  | nil => exact h
  | cons field rest ih =>
    exact ih (generateBlockField_laid h (positive field (by simp)))
      fun other mem => positive other (List.mem_cons_of_mem _ mem)

private theorem generateReturnStatement_laid {before pending : List Nat} {g : LlirGenerator} (h : Laid before pending g)
    (expression : Option IrExpression) : Laid before pending (generateReturnStatement g expression) := by
  have value : Laid before pending (generateReturnValue g expression).2 := by
    cases expression with
    | none => exact h
    | some expression => exact generateExpression_laid g expression h
  exact value.leave (.llirReturn (generateReturnValue g expression).1) (by simp)
    (by simp [LlirTerminal.successors]) (by simp)

/-- `break` and `continue` jump to a block of an enclosing loop. -/
private theorem exit_laid {before pending : List Nat} {g : LlirGenerator} (h : Laid before pending g)
    (exit : Option Nat × Nat)
    {target : Nat} (mem : target ∈ g.breakBlocks ++ g.continueBlocks) :
    let g := ({ g with exits := g.exits ++ [exit] } : LlirGenerator).setTerminal (.jump target)
    Laid before pending (g.newBlock.2.nextBlock g.newBlock.1) := by
  have logged : Laid before pending { g with exits := g.exits ++ [exit] } :=
    h.of_same rfl rfl rfl rfl rfl rfl rfl
  exact logged.leave (.jump target) (by simp) (fun other mem' => List.mem_singleton.mp mem' ▸ h.loops target mem) (by simp)

private theorem generateBreakStatement_laid {before pending : List Nat} {g : LlirGenerator} {loop : Option (Nat × Nat)}
    (h : Laid before pending g) (hl : g.InnermostLoop loop True) :
    Laid before pending (generateBreakStatement g loop) := by
  obtain ⟨blocks, -, top, -⟩ := hl trivial
  obtain ⟨rest, stack⟩ := List.head?_eq_some_iff.mp top
  have target : g.getBreakBlock = (blocks.1, g) := by
    simp [getBreakBlock, LlirGenerator.assert, stack]
  unfold generateBreakStatement
  rw [target]
  exact exit_laid h _ (by simp [stack])

private theorem generateContinueStatement_laid {before pending : List Nat} {g : LlirGenerator}
    {loop : Option (Nat × Nat)}
    (h : Laid before pending g) (hl : g.InnermostLoop loop True) :
    Laid before pending (generateContinueStatement g loop) := by
  obtain ⟨blocks, -, -, top⟩ := hl trivial
  obtain ⟨rest, stack⟩ := List.head?_eq_some_iff.mp top
  have target : g.getContinueBlock = (blocks.2, g) := by
    simp [getContinueBlock, LlirGenerator.assert, stack]
  unfold generateContinueStatement
  rw [target]
  exact exit_laid h _ (by simp [stack])

/-- A loop up to the end of its block; `pending` holds the blocks that come after it. -/
private theorem loopBlock_laid {before pending : List Nat} {c : Context} {g : LlirGenerator}
    {conditionBlock loopBlock endBlock continueBlock : Nat}
    (h : Laid before (conditionBlock :: loopBlock :: pending) g) (hend : endBlock ∈ pending)
    (hcontinue : continueBlock ∈ conditionBlock :: pending) (hm : Matches c.scopes g.symbolTable)
    {condition : IrExpression} (hc : ExpressionTyped readyRules c condition .bool) {block : IrBlock}
    (hb : ∀ g : LlirGenerator, Laid before pending g → Matches c.scopes g.symbolTable →
      g.InnermostLoop (some (endBlock, continueBlock)) True →
      Laid before pending (generateBlock g (some (endBlock, continueBlock)) true block)) :
    let entered := (g.pushLoop endBlock continueBlock).jumpTo conditionBlock conditionBlock
    let operand := (generateExpression entered condition).1
    let branch : LlirBranch := ⟨.equal, false, operand, .literal 0, loopBlock, endBlock⟩
    let g' := generateBlock ((generateExpression entered condition).2.branchTo branch)
      (some (endBlock, continueBlock)) true block
    Laid before pending g' ∧ conditionBlock ∈ g'.ids := by
  intro entered operand branch g'
  have follows : Follows False _ _ _ :=
    loopHead_follows g hm hc conditionBlock loopBlock endBlock continueBlock
  have pushed : Laid before _ (g.pushLoop endBlock continueBlock) := h.pushLoop
    (List.mem_append_right _ (List.mem_cons_of_mem _ (List.mem_cons_of_mem _ hend)))
    (List.mem_append_right _ ((List.mem_cons.mp hcontinue).elim (fun same => same ▸ List.mem_cons_self ..)
      fun mem => List.mem_cons_of_mem _ (List.mem_cons_of_mem _ mem)))
  have entry : Laid before (loopBlock :: pending) entered := pushed.jumpNext
  have placed : conditionBlock ∈ entered.ids := by
    simp [entered, LlirGenerator.jumpTo, LlirGenerator.nextBlock, LlirGenerator.ids, LlirGenerator.layout,
      llirBlockNew]
  have body : Laid before pending g' := hb _ (LlirGenerator.Laid.branchTo branch
    (generateExpression_laid entered condition entry) (List.mem_append_right _ hend)) (follows.matchesScopes hm)
      (follows.innermostLoop fun _ => ⟨(endBlock, continueBlock), rfl, rfl, rfl⟩)
  have grows : entered.Grows g' := ((generateExpression_grows entered condition).trans (branchTo_grows _ branch)).trans
    (generateBlock_grows _ _ true block)
  exact ⟨body, grows.mem_ids placed⟩

mutual

/-- Lowering a statement keeps the layout. -/
private theorem generateStatement_laid {before pending : List Nat} {c : Context} {inLoop : Prop}
    (g : LlirGenerator) (loop : Option (Nat × Nat)) (statement : IrStatement) (h : Laid before pending g)
    (hm : Matches c.scopes g.symbolTable) (hl : g.InnermostLoop loop inLoop)
    (typed : StatementTyped readyRules returnType c inLoop statement) :
    Laid before pending (generateStatement g loop statement) := by
  cases statement with
  | assignment assignment => exact generateAssignment_laid h assignment
  | methodCall identifier arguments => exact generateMethodCall_laid g identifier arguments h
  | ifStatement condition ifBlock =>
    cases typed with
    | ifStatement hc hb =>
      have follows : g.Follows False _ _ := (generateExpression_follows g hm condition hc).andThen
        (branchNew_follows _ .equal false (generateExpression g condition).1 (.literal 0))
      have first := (generateExpression_laid g condition h).branchNew .equal false
        (generateExpression g condition).1 (.literal 0)
      exact (generateBlock_laid _ loop ifBlock first (follows.matchesScopes hm) (follows.innermostLoop hl)
        hb).jumpNext
  | ifElseStatement condition ifBlock elseBlock =>
    cases typed with
    | ifElseStatement hc hb he =>
      have follows : g.Follows False _ _ := (generateExpression_follows g hm condition hc).andThen
        (branchNew_follows _ .equal false (generateExpression g condition).1 (.literal 0))
      have first := (generateExpression_laid g condition h).branchNew .equal false
        (generateExpression g condition).1 (.literal 0)
      have second := generateBlock_laid _ loop ifBlock first (follows.matchesScopes hm)
        (follows.innermostLoop hl) hb
      have third := (second.newBlock.perm (.swap _ _ _)).jumpTo (List.mem_append_right _
        (List.mem_cons_of_mem _ (List.mem_cons_self ..)))
      have between (target next : Nat) : g.Follows False _ _ := ((follows.trans (generateBlock_follows _ loop
        ifBlock (follows.matchesScopes hm) (follows.innermostLoop hl) hb False.elim)).andThen
          (newBlock_follows _)).andThen (jumpTo_follows _ target next)
      exact (generateBlock_laid _ loop elseBlock third ((between _ _).matchesScopes hm)
        ((between _ _).innermostLoop hl) he).jumpNext
  | forStatement initial condition update block =>
    cases typed with
    | forStatement hi hc hu hb =>
      have entered : g.Follows False _ _ := ((((generateAssignment_follows g hm hi).andThen
        (newBlock_follows _)).andThen (newBlock_follows _)).andThen (newBlock_follows _)).andThen
          (newBlock_follows _)
      -- pending: the end block, the update block, the loop block, the condition block
      have made := (generateAssignment_laid h initial).newBlock.newBlock.newBlock.newBlock
      have ready := made.perm ((List.reverse_perm [_, _, _, _]).symm.append_right pending)
      obtain ⟨body, placed⟩ := loopBlock_laid ready (List.mem_cons_of_mem _ (List.mem_cons_self ..))
        (List.mem_cons_of_mem _ (List.mem_cons_self ..)) (entered.matchesScopes hm) hc
          fun g h hm hl => generateBlock_laid g _ block h hm hl hb
      have updated := generateForUpdate_laid body.jumpNext update
      refine (updated.jumpTo (List.mem_append_left _ ?_)).popLoop
      exact (generateForUpdate_grows _ update).mem_ids ((jumpTo_grows _ _ _).mem_ids placed)
  | whileStatement condition block =>
    cases typed with
    | whileStatement hc hb =>
      have entered : g.Follows False _ [] := ((newBlock_follows g).andThen (newBlock_follows _)).andThen
        (newBlock_follows _)
      -- pending: the end block, the loop block, the condition block
      have made := h.newBlock.newBlock.newBlock
      have ready := made.perm ((List.reverse_perm [_, _, _]).symm.append_right pending)
      obtain ⟨body, placed⟩ := loopBlock_laid ready (List.mem_cons_self ..) (List.mem_cons_self ..)
        (entered.matchesScopes hm) hc fun g h hm hl => generateBlock_laid g _ block h hm hl hb
      exact (body.jumpTo (List.mem_append_left _ placed)).popLoop
  | returnStatement expression => exact generateReturnStatement_laid h expression
  | breakStatement =>
    cases typed with
    | breakStatement inside => exact generateBreakStatement_laid h fun _ => hl inside
  | continueStatement =>
    cases typed with
    | continueStatement inside => exact generateContinueStatement_laid h fun _ => hl inside

/-- Lowering a block keeps the layout. -/
private theorem generateBlock_laid {before pending : List Nat} {c : Context} {inLoop : Prop}
    (g : LlirGenerator) (loop : Option (Nat × Nat)) (block : IrBlock) (h : Laid before pending g)
    (hm : Matches c.scopes g.symbolTable) (hl : g.InnermostLoop loop inLoop)
    (typed : BlockTyped readyRules returnType c inLoop [] block) :
    Laid before pending (generateBlock g loop true block) := by
  cases block with
  | mk fields statements =>
    cases typed with
    | mk scope typed =>
      have entered : Matches ([] :: c.scopes) g.symbolTablePushScope.symbolTable :=
        .cons (by simp) .nil (fun _ _ => rfl) hm
      obtain ⟨declared, hm'⟩ := generateBlockFields_declares entered scope.distinct scope.field
        False.elim
      rw [map_analyzed scope.field] at typed
      have pushed : Laid before pending g.symbolTablePushScope := h.of_same rfl rfl rfl rfl rfl rfl rfl
      have filled := generateBlockFields_laid pushed fun field mem => (scope.field field mem).positive
      have body := generateStatements_laid _ loop statements filled hm' (declared.innermostLoop hl) typed
      exact (body.assert _).of_same rfl rfl rfl rfl rfl rfl rfl

/-- Lowering statements keeps the layout. -/
private theorem generateStatements_laid {before pending : List Nat} {c : Context} {inLoop : Prop}
    (g : LlirGenerator) (loop : Option (Nat × Nat)) (statements : IrStatements) (h : Laid before pending g)
    (hm : Matches c.scopes g.symbolTable) (hl : g.InnermostLoop loop inLoop)
    (typed : StatementsTyped readyRules returnType c inLoop statements) :
    Laid before pending (generateStatements g loop statements) := by
  cases statements with
  | nil => exact h
  | cons statement rest =>
    cases typed with
    | cons hs hr =>
      have follows : g.Follows False _ _ := generateStatement_follows g loop statement hm hl hs False.elim
      exact generateStatements_laid _ loop rest (generateStatement_laid g loop statement h hm hl hs)
        (follows.matchesScopes hm) (follows.innermostLoop hl) hr

end

end

def LlirTerminal.Leaves : LlirTerminal → Prop
  | .llirReturn _ | .shitYourself _ => True
  | _ => False

def LlirMethod.sources (method : LlirMethod) (id : Nat) : List Nat :=
  method.blocks.flatMap fun block => (block.terminal.successors.filter (· == id)).map fun _ => block.id

/-- The graph of a method. The last block leaves the method. -/
structure LlirMethod.WellFormed (method : LlirMethod) : Prop where
  targets : ∀ block ∈ method.blocks, ∀ target ∈ block.terminal.successors, target ∈ method.blocks.map LlirBlock.id
  chain : method.blocks.IsChain fun block next => block.terminal.FallsTo next.id
  last : ∃ last ∈ method.blocks.getLast?, last.terminal.Leaves
  predecessors : ∀ block ∈ method.blocks, block.predecessors.Perm (method.sources block.id)
  positive : ∀ field ∈ method.fields, 0 < field.valueCount

def generateMethodStart (g : LlirGenerator) (method : IrMethod) : LlirGenerator :=
  let g := (generateMethodArguments g.symbolTablePushScope method.arguments).2
  { g.newBlock.2 with blocks := [], currentBlock := llirBlockNew g.newBlock.1, predecessors := [] }

def generateMethodBody (g : LlirGenerator) (method : IrMethod) : LlirGenerator :=
  generateBlock (generateMethodStart g method) none false method.block

theorem generateMethod_eq (g : LlirGenerator) (method : IrMethod) :
    (generateMethod g method).1 =
      { identifier := method.identifier
        arguments := (generateMethodArguments g.symbolTablePushScope method.arguments).1
        blocks := ((generateMethodBody g method).setTerminal (methodEnd method)).layout.map fun block =>
          block.withPredecessors ((generateMethodBody g method).setTerminal (methodEnd method)).predecessors } := rfl

/-- A method forgets neither a failure nor the writes before it. -/
theorem generateMethod_keeps (g : LlirGenerator) (method : IrMethod) :
    ((generateMethod g method).2.failed = false → g.failed = false) ∧
      g.writes ⊆ (generateMethod g method).2.writes := by
  have arguments (fields : List IrField) (g : LlirGenerator) : g.Grows (generateMethodArguments g fields).2 := by
    induction fields generalizing g with
    | nil => exact .refl g
    | cons field rest ih => exact (generateField_grows g field).trans (ih _)
  have start := arguments method.arguments g.symbolTablePushScope
  have body := generateBlock_grows (generateMethodStart g method) none false method.block
  have popped := assert_grows ((generateMethodBody g method).setTerminal (methodEnd method))
    (((generateMethodBody g method).setTerminal (methodEnd method)).symbolTable ≠ [])
  exact ⟨fun alive => start.succeeds (body.succeeds (popped.succeeds alive)),
    fun _ mem => popped.writes (body.writes (start.writes mem))⟩

private theorem methodEnd_leaves (method : IrMethod) : (methodEnd method).Leaves := by
  by_cases void : method.returnType = .void
  · simp [methodEnd, void, LlirTerminal.Leaves]
  · simp [methodEnd, void, LlirTerminal.Leaves]

theorem LlirTerminal.Leaves.successors {terminal : LlirTerminal} (h : terminal.Leaves) : terminal.successors = [] := by
  cases terminal <;> first | rfl | exact h.elim

/-- Globals and arguments make no blocks. -/
private theorem generateMethodArguments_blocks (fields : List IrField) (g : LlirGenerator) :
    (generateMethodArguments g fields).2.blockCounter = g.blockCounter ∧
      (generateMethodArguments g fields).2.terminated = g.terminated := by
  induction fields generalizing g with
  | nil => exact ⟨rfl, rfl⟩
  | cons field rest ih =>
    obtain ⟨counter, log⟩ := ih (generateField g field).2
    have first : (generateField g field).2.blockCounter = g.blockCounter ∧
        (generateField g field).2.terminated = g.terminated := by
      unfold generateField LlirGenerator.assert
      dsimp only
      split
      · exact ⟨rfl, rfl⟩
      · exact ⟨rfl, rfl⟩
    exact ⟨counter.trans first.1, log.trans first.2⟩

structure LlirGenerator.Rests (g : LlirGenerator) : Prop where
  made : g.terminated.Perm (List.range g.blockCounter)
  breakBlocks : g.breakBlocks = []
  continueBlocks : g.continueBlocks = []

section
variable {g : LlirGenerator} {c : Context} {method : IrMethod} {before : List Nat}

theorem generateMethodStart_laid (hm : Matches c.scopes g.symbolTable)
    (distinct : (method.arguments.map IrField.identifier).Nodup) (ready : ∀ field ∈ method.arguments, field.Ready)
    (rests : g.Rests) :
    Laid g.terminated [] (generateMethodStart g method) ∧
      Matches (method.arguments :: c.scopes) (generateMethodStart g method).symbolTable := by
  have entered : Matches ([] :: c.scopes) g.symbolTablePushScope.symbolTable :=
    .cons (by simp) .nil (fun _ _ => rfl) hm
  obtain ⟨_, declared, hm'⟩ : _ ∧ g.symbolTablePushScope.Declares False _ ∧ _ :=
    generateMethodArguments_declares entered (by simpa using distinct) ready
  obtain ⟨counter, log⟩ : _ = g.blockCounter ∧ _ = g.terminated :=
    generateMethodArguments_blocks method.arguments g.symbolTablePushScope
  refine ⟨⟨?_, ?_, ?_, ?_, .singleton _, rfl, ?_, rfl⟩, hm'⟩
  · have made : (g.terminated ++ [g.blockCounter]).Perm (List.range (g.blockCounter + 1)) := by
      rw [List.range_succ]
      exact rests.made.append_right _
    simpa [LlirGenerator.ids, LlirGenerator.layout, generateMethodStart, llirBlockNew, LlirGenerator.newBlock,
      counter] using made
  · simpa [generateMethodStart, LlirGenerator.newBlock] using log
  · simp [generateMethodStart]
  · have same : (generateMethodStart g method).breakBlocks ++ (generateMethodStart g method).continueBlocks = [] :=
      List.append_eq_nil_iff.mpr ⟨declared.breakBlocks.trans rests.breakBlocks,
        declared.continueBlocks.trans rests.continueBlocks⟩
    simp [same]
  · simp [LlirGenerator.layout, generateMethodStart, llirBlockNew]

/-- The body of a method leaves no block pending. -/
theorem generateMethodBody_laid (hm : Matches c.scopes g.symbolTable)
    (typed : BlockTyped readyRules method.returnType c False method.arguments method.block)
    (rests : g.Rests) : Laid g.terminated [] (generateMethodBody g method) := by
  unfold generateMethodBody
  cases hblock : method.block with
  | mk fields statements =>
    rw [hblock] at typed
    cases typed with
    | mk scope typed =>
      have distinct := scope.distinct
      rw [List.map_append, List.nodup_append] at distinct
      obtain ⟨start, hm'⟩ := generateMethodStart_laid hm distinct.1
        (fun field mem => scope.field field (List.mem_append_left _ mem)) rests
      have ready (field : IrField) (mem : field ∈ fields) : field.Ready :=
        scope.field field (List.mem_append_right _ mem)
      obtain ⟨declared, hm''⟩ := generateBlockFields_declares hm' scope.distinct ready False.elim
      rw [map_analyzed scope.field] at typed
      have filled := generateBlockFields_laid start fun field mem => (ready field mem).positive
      exact generateStatements_laid _ none statements filled hm'' (fun inLoop => inLoop.elim) typed

/-- The edges into one block, from the collected pairs. -/
theorem predecessors_of_pairs (blocks : List LlirBlock) (id : Nat) :
    ((blocks.flatMap fun block => block.terminal.successors.map fun target => (target, block.id)).filter
      fun pair => pair.1 == id).map Prod.snd =
      blocks.flatMap fun block => (block.terminal.successors.filter (· == id)).map fun _ => block.id := by
  induction blocks with
  | nil => rfl
  | cons block rest ih =>
    rw [List.flatMap_cons, List.flatMap_cons, List.filter_append, List.map_append, ih, List.filter_map,
      List.map_map]
    rfl

/-- A generated graph whose last block gets a terminal that leaves the method. -/
theorem LlirGenerator.Laid.wellFormed {g : LlirGenerator} (h : Laid before [] g) {terminal : LlirTerminal}
    (leaves : terminal.Leaves) {identifier : String}
    {arguments : List LlirField} (positive : ∀ field ∈ arguments, 0 < field.valueCount) :
    LlirMethod.WellFormed ⟨identifier, arguments, (g.setTerminal terminal).layout.map fun block =>
      block.withPredecessors (g.setTerminal terminal).predecessors⟩ := by
  have ids : (g.setTerminal terminal).ids = g.ids := by
    simp [LlirGenerator.ids, LlirGenerator.layout, LlirGenerator.setTerminal]
  have mapped : ((g.setTerminal terminal).layout.map fun block =>
      block.withPredecessors (g.setTerminal terminal).predecessors).map LlirBlock.id = g.ids := by
    rw [List.map_map, ← ids]
    rfl
  have predecessors : (g.setTerminal terminal).predecessors =
      (g.setTerminal terminal).layout.flatMap fun block =>
        block.terminal.successors.map fun target => (target, block.id) := by
    simp [LlirGenerator.layout, LlirGenerator.setTerminal, leaves.successors, h.predecessors]
  have targets : ∀ block ∈ (g.setTerminal terminal).layout, ∀ target ∈ block.terminal.successors,
      target ∈ g.ids := fun block mem => by
    obtain mem | mem := List.mem_append.mp mem
    · simpa using h.targets block mem
    · rw [List.mem_singleton.mp mem]
      simp [LlirGenerator.setTerminal, leaves.successors]
  have chain : (g.setTerminal terminal).layout.IsChain fun block next => block.terminal.FallsTo next.id := by
    have chain := List.isChain_append.mp h.chain
    refine chain.1.append (.singleton _) fun block mem next mem' => ?_
    obtain rfl : (g.setTerminal terminal).currentBlock = next := by simpa using mem'
    exact chain.2.2 block mem g.currentBlock (by simp)
  constructor
  · rw [mapped]
    intro block mem
    obtain ⟨original, laid, rfl⟩ := List.mem_map.mp mem
    exact targets original laid
  · exact (List.isChain_map _).mpr chain
  · exact ⟨(g.setTerminal terminal).currentBlock.withPredecessors (g.setTerminal terminal).predecessors,
      by simp [LlirGenerator.layout], leaves⟩
  · intro block mem
    obtain ⟨original, laid, rfl⟩ := List.mem_map.mp mem
    have same := predecessors_of_pairs (g.setTerminal terminal).layout original.id
    rw [← predecessors] at same
    refine List.Perm.of_eq (same.trans ?_)
    rw [LlirMethod.sources, List.flatMap_map]
    rfl
  · intro field mem
    obtain mem | mem := List.mem_append.mp mem
    · exact positive field mem
    · obtain ⟨block, mem, declared⟩ := List.mem_flatMap.mp mem
      obtain ⟨original, laid, rfl⟩ := List.mem_map.mp mem
      obtain laid | laid := List.mem_append.mp laid
      · exact h.fields original (List.mem_append_left _ laid) field declared
      · rw [List.mem_singleton.mp laid] at declared
        exact h.fields g.currentBlock (by simp [LlirGenerator.layout]) field declared

/-- The parameters are lowered in order. -/
theorem generateMethod_arguments (hm : Matches c.scopes g.symbolTable)
    (typed : BlockTyped readyRules method.returnType c False method.arguments method.block) :
    (generateMethodArguments g.symbolTablePushScope method.arguments).1 =
      method.arguments.map (IrField.llirField c.scopes.length) ∧ ∀ field ∈ method.arguments, field.Ready := by
  have entered : Matches ([] :: c.scopes) g.symbolTablePushScope.symbolTable :=
    .cons (by simp) .nil (fun _ _ => rfl) hm
  obtain ⟨fields, scope⟩ : ∃ fields, ScopeTyped readyRules (method.arguments ++ fields) := by
    cases hblock : method.block with
    | mk fields statements =>
      rw [hblock] at typed
      cases typed with
      | mk scope typed => exact ⟨fields, scope⟩
  have distinct := scope.distinct
  rw [List.map_append, List.nodup_append] at distinct
  have ready (field : IrField) (mem : field ∈ method.arguments) : field.Ready :=
    scope.field field (List.mem_append_left _ mem)
  obtain ⟨fields, -⟩ : _ ∧ g.symbolTablePushScope.Declares False _ ∧ _ :=
    generateMethodArguments_declares entered (by simpa using distinct.1) ready
  exact ⟨fields, ready⟩

private theorem generateMethod_wellFormed (hm : Matches c.scopes g.symbolTable)
    (typed : BlockTyped readyRules method.returnType c False method.arguments method.block)
    (rests : g.Rests) : (generateMethod g method).1.WellFormed := by
  have h := generateMethodBody_laid hm typed rests
  obtain ⟨arguments, ready⟩ := generateMethod_arguments hm typed
  rw [generateMethod_eq, arguments]
  refine h.wellFormed (methodEnd_leaves method) fun field mem => ?_
  obtain ⟨original, declared, rfl⟩ := List.mem_map.mp mem
  exact (ready original declared).positive

/-- A method ends the blocks that it makes, each of them once. -/
theorem generateMethod_rests (hm : Matches c.scopes g.symbolTable)
    (typed : BlockTyped readyRules method.returnType c False method.arguments method.block)
    (rests : g.Rests) :
    (generateMethod g method).2.Rests ∧ (generateMethod g method).2.terminated =
      g.terminated ++ (generateMethod g method).1.blocks.map LlirBlock.id := by
  have h := generateMethodBody_laid hm typed rests
  have follows : g.Follows False _ _ := generateMethod_follows hm typed False.elim
  have ids : (generateMethod g method).1.blocks.map LlirBlock.id = (generateMethodBody g method).ids := by
    rw [generateMethod_eq, List.map_map]
    simp [LlirGenerator.ids, LlirGenerator.layout, LlirGenerator.setTerminal, LlirBlock.withPredecessors]
  have log : (generateMethod g method).2.terminated = g.terminated ++ (generateMethodBody g method).ids := by
    have ended : (generateMethod g method).2.terminated =
        (generateMethodBody g method).terminated ++ [(generateMethodBody g method).currentBlock.id] := by
      change ((generateMethodBody g method).setTerminal (methodEnd method)).symbolTablePopScope.terminated = _
      unfold LlirGenerator.symbolTablePopScope LlirGenerator.assert
      split <;> rfl
    rw [ended, h.terminated, List.append_assoc, LlirGenerator.ids, LlirGenerator.layout, List.map_append]
    rfl
  have counter : (generateMethod g method).2.blockCounter = (generateMethodBody g method).blockCounter := by
    change ((generateMethodBody g method).setTerminal (methodEnd method)).symbolTablePopScope.blockCounter = _
    unfold LlirGenerator.symbolTablePopScope LlirGenerator.assert
    split <;> rfl
  refine ⟨⟨?_, follows.breakBlocks.trans rests.breakBlocks, follows.continueBlocks.trans rests.continueBlocks⟩,
    ids ▸ log⟩
  rw [log, counter]
  simpa using h.made

/-- The methods come one by one from generators at rest. -/
private theorem generateMethods_wellFormed {methods : List IrMethod} (hm : Matches c.scopes g.symbolTable)
    (typed : MethodsTyped readyRules c methods) (rests : g.Rests) :
    (∀ method ∈ (generateMethods g methods).1, method.WellFormed) ∧ (generateMethods g methods).2.Rests ∧
      (generateMethods g methods).2.terminated =
        g.terminated ++ (generateMethods g methods).1.flatMap fun method => method.blocks.map LlirBlock.id := by
  induction methods generalizing g c with
  | nil => exact ⟨by simp [generateMethods], rests, (List.append_nil _).symm⟩
  | cons method rest ih =>
    cases typed with
    | cons hmethod hrest =>
      have follows : g.Follows False _ _ :=
        generateMethod_follows (c := ⟨c.scopes, c.methods ++ [method]⟩) hm hmethod False.elim
      have first := generateMethod_wellFormed (c := ⟨c.scopes, c.methods ++ [method]⟩) hm hmethod rests
      obtain ⟨between, log⟩ := generateMethod_rests (c := ⟨c.scopes, c.methods ++ [method]⟩) hm hmethod rests
      obtain ⟨wellFormed, finished, others⟩ :=
        ih (c := ⟨c.scopes, c.methods ++ [method]⟩) (follows.matchesScopes hm) hrest between
      refine ⟨List.forall_mem_cons.mpr ⟨first, wellFormed⟩, finished, ?_⟩
      change (generateMethods (generateMethod g method).2 rest).2.terminated = _
      rw [others, log, List.append_assoc]
      rfl

end

theorem generateMethods_identifiers (g : LlirGenerator) (methods : List IrMethod) :
    (generateMethods g methods).1.map LlirMethod.identifier = methods.map IrMethod.identifier := by
  induction methods generalizing g with
  | nil => rfl
  | cons method rest ih => exact congrArg (method.identifier :: ·) (ih _)

/-- The graphs of a program: every block that was made is in one method, once, and its terminal was set once. -/
structure Llir.WellFormed (llir : Llir) (g : LlirGenerator) : Prop where
  made : (llir.methods.flatMap fun method => method.blocks.map LlirBlock.id).Perm (List.range g.blockCounter)
  terminated : g.terminated = llir.methods.flatMap fun method => method.blocks.map LlirBlock.id
  methods : ∀ method ∈ llir.methods, method.WellFormed

/-- No block is made before the first method. -/
theorem IrProgram.Ready.globals_rests {program : IrProgram} (ready : program.Ready) :
    (generateGlobals llirGeneratorNew program.fields).2.Rests ∧
      (generateGlobals llirGeneratorNew program.fields).2.terminated = [] := by
  obtain ⟨-, declares, -⟩ := ready.globals False
  obtain ⟨counter, log⟩ : (generateGlobals llirGeneratorNew program.fields).2.blockCounter = 0 ∧
      (generateGlobals llirGeneratorNew program.fields).2.terminated = [] := by
    rw [generateGlobals_eq]
    exact generateMethodArguments_blocks program.fields llirGeneratorNew
  exact ⟨⟨by simp [counter, log], declares.breakBlocks, declares.continueBlocks⟩, log⟩

theorem IrProgram.Ready.wellFormed {program : IrProgram} (ready : program.Ready) :
    (generateLlir program).1.WellFormed (generateLlir program).2 := by
  obtain ⟨-, -, hm⟩ := ready.globals False
  obtain ⟨start, log⟩ := ready.globals_rests
  obtain ⟨methods, rests, terminated⟩ := generateMethods_wellFormed hm ready.methods_typed start
  rw [log, List.nil_append] at terminated
  exact ⟨terminated ▸ rests.made, terminated, methods⟩

/-- The graphs of a lowered program are well formed. -/
theorem accepts_wellFormed {program analyzed : IrProgram} (source : program.FromSource)
    (accepted : Accepts program analyzed) {llir : Llir} (lowered : llirGeneratorGenerateLlir analyzed = some llir) :
    llir.WellFormed (generateLlir analyzed).2 := by
  obtain ⟨rfl, -⟩ := llirGeneratorGenerateLlir_eq lowered
  exact (accepts_ready source accepted).wellFormed

theorem shadowing_wellFormed : (generateLlir (semanticsAnalyze shadowing).2).1.WellFormed
    (generateLlir (semanticsAnalyze shadowing).2).2 :=
  accepts_wellFormed (by decide +kernel : shadowing.FromSource) (Prod.ext (by decide +kernel) rfl)
    (by decide +kernel)

end Roast
