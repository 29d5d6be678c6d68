import Roast.Optimizations.Passes

/-! What constant folding replaces: a local by the literal that all definitions which reach it hold. -/
namespace Roast
open Systems

section
variable {n : Nat} {blocks : List LlirBlock} {block : LlirBlock} {index : Nat}

/-- Only a local is replaced, by the literal that all definitions hold. -/
theorem optimizeOperand_replaced (mem : block ∈ blocks) (enough : (predecessorIds blocks).length < n) {field : LlirField}
    {operand : LlirOperand} (optimized : optimizeOperand n blocks block index (.field field) = .ok operand)
    (changed : operand ≠ .field field) :
    llirOperandIsFieldGlobal field = false ∧ ∃ literal, operand = .literal literal ∧
      ∀ definition, ReachingDefinition blocks block index field.identifier definition → definition.constant = some literal := by
  obtain ⟨operand', optimized', constant⟩ := optimizeOperand_spec mem enough index (.field field)
  obtain rfl := Except.ok.inj (optimized.symm.trans optimized')
  obtain ⟨literal, rfl⟩ : ∃ literal, operand = .literal literal := by
    rw [optimizeOperand] at optimized
    split_ifs at optimized
    · exact absurd (Except.ok.inj optimized).symm changed
    · split at optimized
      · cases optimized
      · rename_i definitions _
        have same := Except.ok.inj optimized
        cases found : allDefinitionsAreConstant definitions with
        | none =>
          rw [found] at same
          exact absurd same.symm changed
        | some literal =>
          rw [found] at same
          exact ⟨literal, same.symm⟩
  obtain impossible | ⟨other, same, isLocal, -, all⟩ := (constant literal).mp rfl
  · cases impossible
  · obtain rfl := LlirOperand.field.inj same
    exact ⟨isLocal, literal, rfl, all⟩

private theorem optimizeUnaryOperation_optimized {type : LlirUnaryType} {source : LlirOperand} {destination : LlirField}
    {assignment' : LlirAssignment}
    (optimized : optimizeUnaryOperation n blocks block index type source destination = .ok assignment') :
    (LlirAssignment.unary type source destination).OptimizedTo assignment'
      (OperandsKept (optimizeOperand n blocks block index) [source]) := by
  obtain ⟨source', found, optimized⟩ := except_bind_eq_ok optimized
  cases source' with
  | literal literal =>
    obtain rfl := Except.ok.inj optimized
    refine ⟨rfl, fun llir environment s frame rest keep => ?_⟩
    rw [stepAssignment, stepAssignment, ← keep source List.mem_cons_self _ found, unaryOperation_eq]
    rfl
  | field field =>
    obtain rfl := Except.ok.inj optimized
    refine ⟨rfl, fun llir environment s frame rest keep => ?_⟩
    rw [stepAssignment, stepAssignment, keep source List.mem_cons_self _ found]
  | string string =>
    obtain rfl := Except.ok.inj optimized
    refine ⟨rfl, fun llir environment s frame rest keep => ?_⟩
    rw [stepAssignment, stepAssignment, keep source List.mem_cons_self _ found]

private theorem optimizeBinaryOperation_optimized {type : LlirBinaryType} {left right : LlirOperand}
    {destination : LlirField}
    {assignment' : LlirAssignment}
    (optimized : optimizeBinaryOperation n blocks block index type left right destination = .ok assignment') :
    (LlirAssignment.binary type left right destination).OptimizedTo assignment'
      (OperandsKept (optimizeOperand n blocks block index) [left, right]) := by
  obtain ⟨left', found, optimized⟩ := except_bind_eq_ok optimized
  obtain ⟨right', found', optimized⟩ := except_bind_eq_ok optimized
  split at optimized
  · rename_i first second _
    cases result : binaryOperation first second type with
    | none =>
      rw [result] at optimized
      cases optimized
    | some literal =>
      rw [result] at optimized
      obtain rfl := Except.ok.inj optimized
      refine ⟨rfl, fun llir environment s frame rest keep => ?_⟩
      have applied : type.apply (s.operand llir environment frame (.literal first))
          (s.operand llir environment frame (.literal second)) = some literal := binaryOperation_eq first second type ▸ result
      rw [stepAssignment, stepAssignment, ← keep left List.mem_cons_self _ found,
        ← keep right (List.mem_cons_of_mem _ List.mem_cons_self) _ found', applied]
      rfl
  · obtain rfl := Except.ok.inj optimized
    refine ⟨rfl, fun llir environment s frame rest keep => ?_⟩
    rw [stepAssignment, stepAssignment, keep left List.mem_cons_self _ found,
      keep right (List.mem_cons_of_mem _ List.mem_cons_self) _ found']

/-- The folded assignment does the same as the assignment. -/
theorem optimizeAssignment_optimized {assignment assignment' : LlirAssignment}
    (optimized : optimizeAssignment n blocks block index assignment = .ok assignment') :
    assignment.OptimizedTo assignment' (OperandsKept (optimizeOperand n blocks block index) assignment.operands) := by
  cases assignment with
  | unary type source destination => exact optimizeUnaryOperation_optimized optimized
  | binary type left right destination => exact optimizeBinaryOperation_optimized optimized
  | arrayUpdate | arrayAccess | methodCall =>
    exact LlirAssignment.mapOperands_optimized (except_fallible FoldError) optimized

end

theorem foldStep_eq (n : Nat) (blocks : List LlirBlock) (step : FoldStep) :
    foldStep n blocks step = passTurn (optimizeAssignment n) (optimizeTerminal n) blocks step := by
  cases step <;> rfl

theorem optimizeTerminal_optimized {n : Nat} {blocks : List LlirBlock} {block : LlirBlock} {index : Nat}
    {terminal terminal' : LlirTerminal} (optimized : optimizeTerminal n blocks block index terminal = .ok terminal') :
    terminal.OptimizedTo terminal' (OperandsKept (optimizeOperand n blocks block index) terminal.operands) := by
  have all : terminal.mapOperands (optimizeOperand n blocks block index) = .ok terminal' := by
    cases terminal <;> exact optimized
  exact LlirTerminal.mapOperands_optimized (except_fallible FoldError) all

/-- Constant folding replaces operands, and what it knows of a field is what the last assignments to it tell. -/
theorem constantFolding_replaces (n : Nat) : ReplacesOperands (foldStep n) (optimizeOperand n) n where
  fallible := except_fallible FoldError
  turns := by
    intro blocks step blocks' turned
    exact passTurn_cases (except_fallible FoldError) (fun _ _ _ => rfl) (fun _ _ _ => rfl)
      (fun block index assignment assignment' => optimizeAssignment_optimized)
      (fun block index terminal terminal' => optimizeTerminal_optimized) (foldStep_eq n blocks step ▸ turned)
  told := by
    intro llir environment s frame blocks block field operand locals cfg short enough mem within optimized changed history assigned
    obtain ⟨isLocal, literal, rfl, all⟩ := optimizeOperand_replaced mem enough optimized changed
    have notGlobal := locals field isLocal
    rw [MachineState.cell, if_neg notGlobal] at assigned
    obtain unassigned | ⟨definition, reaches, tells⟩ := history notGlobal
    · exact absurd unassigned assigned
    · have holds := tells.constant literal (all _ (reaches.reachingDefinition cfg short mem within))
      rw [MachineState.operand, MachineState.operand, MachineState.cell, if_neg notGlobal]
      exact holds.symm

end Roast
