import Roast.Optimizations.Folding

/-! What copy propagation replaces: a local by another one that all definitions which reach it copy. -/
namespace Roast.CopyPropagation
open Systems

private theorem copiedField_eq_some {assignment : LlirAssignment} {field : LlirField}
    (copied : copiedField assignment = some field) :
    assignment.copied = some field ∧ llirOperandIsFieldGlobal field = false := by
  unfold copiedField at copied
  split at copied
  · split_ifs at copied with global
    obtain rfl := Option.some.inj copied
    exact ⟨rfl, Bool.eq_false_iff.mpr global⟩
  · cases copied

/-- A propagated copy is local, unchanged, and what each definition copies. -/
theorem canPropagateCopy_eq_some {definitions : List LlirAssignment} {mutated : List String} {copy : LlirField}
    (propagated : canPropagateCopy definitions mutated = some copy) : copy.identifier ∉ mutated ∧
      llirOperandIsFieldGlobal copy = false ∧ ∀ definition ∈ definitions, ∃ field, definition.copied = some field ∧
        field.identifier = copy.identifier ∧ llirOperandIsFieldGlobal field = false := by
  cases definitions with
  | nil => cases propagated
  | cons first rest =>
    obtain ⟨here, checks⟩ := Option.filter_eq_some_iff.mp propagated
    rw [Bool.and_eq_true, List.all_eq_true, Bool.not_eq_true', List.contains_eq_mem, decide_eq_false_iff_not] at checks
    obtain ⟨copied, isLocal⟩ := copiedField_eq_some here
    refine ⟨checks.2, isLocal, List.forall_mem_cons.mpr ⟨⟨copy, copied, rfl, isLocal⟩, fun definition mem => ?_⟩⟩
    obtain ⟨field, there, same⟩ := Option.any_eq_true _ _ |>.mp (checks.1 definition mem)
    obtain ⟨copied, isLocal⟩ := copiedField_eq_some there
    exact ⟨field, copied, (eq_of_beq same).symm, isLocal⟩

section
variable {n : Nat} {blocks : List LlirBlock} {block : LlirBlock} {index : Nat}

/-- Only a local is replaced, by a local that the search lets pass. -/
theorem optimizeOperand_replaced {field : LlirField} {operand : LlirOperand}
    (optimized : optimizeOperand n blocks block index (.field field) = some operand) (changed : operand ≠ .field field) :
    llirOperandIsFieldGlobal field = false ∧ ∃ copy definitions mutated, operand = .field copy ∧
      findDefinitions blocks field.identifier n block index = some (definitions, mutated) ∧
      canPropagateCopy (definitions.map LlirDefinition.assignment) mutated = some copy := by
  rw [optimizeOperand] at optimized
  split_ifs at optimized with global
  · exact absurd (Option.some.inj optimized).symm changed
  · obtain ⟨⟨definitions, mutated⟩, found, same⟩ := Option.map_eq_some_iff.mp optimized
    refine ⟨Bool.eq_false_iff.mpr global, ?_⟩
    dsimp only at same
    cases propagated : canPropagateCopy (definitions.map LlirDefinition.assignment) mutated with
    | none =>
      rw [propagated] at same
      exact absurd same.symm changed
    | some copy =>
      rw [propagated] at same
      exact ⟨copy, definitions, mutated, same.symm, found, propagated⟩

end

theorem copyStep_eq (n : Nat) (blocks : List LlirBlock) (step : FoldStep) :
    copyStep n blocks step = passTurn (optimizeAssignment n) (optimizeTerminal n) blocks step := by
  cases step <;> rfl

section
variable {n : Nat} {blocks : List LlirBlock} {block : LlirBlock} {index : Nat}

theorem optimizeAssignment_optimized {assignment assignment' : LlirAssignment}
    (optimized : optimizeAssignment n blocks block index assignment = some assignment') :
    assignment.OptimizedTo assignment' (OperandsKept (optimizeOperand n blocks block index) assignment.operands) := by
  have all : assignment.mapOperands (optimizeOperand n blocks block index) = some assignment' := by
    cases assignment <;> exact optimized
  exact LlirAssignment.mapOperands_optimized option_fallible all

theorem optimizeTerminal_optimized {terminal terminal' : LlirTerminal}
    (optimized : optimizeTerminal n blocks block index terminal = some terminal') :
    terminal.OptimizedTo terminal' (OperandsKept (optimizeOperand n blocks block index) terminal.operands) := by
  have all : terminal.mapOperands (optimizeOperand n blocks block index) = some terminal' := by
    cases terminal <;> exact optimized
  exact LlirTerminal.mapOperands_optimized option_fallible all

end

/-- Copy propagation replaces operands, and what it knows of a field is what the last assignments to it tell. -/
theorem copyPropagation_replaces (n : Nat) : ReplacesOperands (copyStep n) (optimizeOperand n) n where
  fallible := option_fallible
  turns := by
    intro blocks step blocks' turned
    exact passTurn_cases option_fallible (fun _ _ _ => rfl) (fun _ _ _ => rfl)
      (fun block index assignment assignment' => optimizeAssignment_optimized)
      (fun block index terminal terminal' => optimizeTerminal_optimized) (copyStep_eq n blocks step ▸ turned)
  told := by
    intro llir environment s frame blocks block field operand locals cfg short enough mem within optimized changed history assigned
    obtain ⟨isLocal, copy, definitions, mutated, rfl, found, propagated⟩ := optimizeOperand_replaced optimized changed
    obtain ⟨fresh, copyLocal, copies⟩ := canPropagateCopy_eq_some propagated
    obtain ⟨definitions', mutated', -, found', -, exactly, complete⟩ :=
      findDefinitions_spec cfg short mem within field.identifier enough
    obtain ⟨rfl, rfl⟩ := Prod.mk.inj (Option.some.inj (found.symm.trans found'))
    rw [MachineState.cell, if_neg (locals field isLocal)] at assigned
    obtain unassigned | ⟨definition, reaches, tells⟩ := history (locals field isLocal)
    · exact absurd unassigned assigned
    obtain ⟨other, copied, same, otherLocal⟩ :=
      copies definition.assignment (List.mem_map_of_mem ((exactly definition).mpr reaches))
    have untouched : ¬ Mutated blocks field.identifier other.identifier (block.id, frame.index) :=
      fun mutated => fresh (same ▸ (complete _).mpr mutated)
    have equal := tells.copied other copied (locals other otherLocal) untouched
    rw [MachineState.operand, MachineState.operand, MachineState.cell, MachineState.cell, if_neg (locals copy copyLocal),
      if_neg (locals field isLocal), equal, same]

section
variable {optimize : LlirOperand → Option LlirOperand} (total : ∀ operand, ∃ operand', optimize operand = some operand')
include total

private theorem mapOperands_ends (assignment : LlirAssignment) :
    ∃ assignment', assignment.mapOperands optimize = some assignment' := by
  choose result total using total
  cases assignment with
  | methodCall method arguments destination =>
    have mapped : arguments.mapM optimize = some (arguments.map result) := mapM_eq_some fun operand _ => total operand
    exact ⟨.methodCall method (arguments.map result) destination, by simp [LlirAssignment.mapOperands, mapped]⟩
  | unary | binary | arrayUpdate | arrayAccess => simp [LlirAssignment.mapOperands, total]

private theorem terminal_mapOperands_ends (terminal : LlirTerminal) :
    ∃ terminal', terminal.mapOperands optimize = some terminal' := by
  choose result total using total
  cases terminal <;> simp [LlirTerminal.mapOperands, total]

end

section
variable {n : Nat} {blocks : List LlirBlock} (cfg : WellFormedCfg blocks) (short : ShortBlocks blocks)
  (enough : (predecessorIds blocks).length < n)
include cfg short enough

/-- The searches for an operand end. -/
private theorem optimizeOperand_ends {block : LlirBlock} (mem : block ∈ blocks) {index : Nat}
    (inside : index ≤ block.assignments.length)
    (operand : LlirOperand) : ∃ operand', optimizeOperand n blocks block index operand = some operand' := by
  cases operand with
  | field field =>
    rw [optimizeOperand]
    split_ifs
    · exact ⟨_, rfl⟩
    · obtain ⟨definitions, mutated, -, found, -⟩ := findDefinitions_spec cfg short mem inside field.identifier enough
      rw [found]
      exact ⟨_, rfl⟩
  | literal literal => exact ⟨_, rfl⟩
  | string string => exact ⟨_, rfl⟩

/-- Each turn of the pass ends. -/
private theorem copyStep_ends (step : FoldStep) : ∃ blocks', copyStep n blocks step = some blocks' := by
  cases step with
  | assignment position index =>
    rw [copyStep]
    cases here : blocks[position]? with
    | none => exact ⟨blocks, rfl⟩
    | some block =>
      dsimp only
      cases listed : block.assignments[index]? with
      | none => exact ⟨blocks, rfl⟩
      | some assignment =>
        have inside := (List.getElem?_eq_some_iff.mp listed).1.le
        obtain ⟨assignment', optimized⟩ :=
          mapOperands_ends (optimizeOperand_ends cfg short enough (List.mem_of_getElem? here) inside) assignment
        have all : optimizeAssignment n blocks block index assignment = some assignment' := by
          cases assignment <;> exact optimized
        exact ⟨_, congrArg (Option.bind · _) all⟩
  | terminal position =>
    rw [copyStep]
    cases here : blocks[position]? with
    | none => exact ⟨blocks, rfl⟩
    | some block =>
      obtain ⟨terminal', optimized⟩ :=
        terminal_mapOperands_ends (optimizeOperand_ends cfg short enough (List.mem_of_getElem? here) le_rfl) block.terminal
      have all : optimizeTerminal n blocks block block.assignments.length block.terminal = some terminal' := by
        cases terminal : block.terminal <;> exact terminal ▸ optimized
      exact ⟨_, congrArg (Option.bind · _) all⟩

end

/-- By induction on the turns, which keep the graph. -/
theorem copyMethod_ends {n : Nat} {method : LlirMethod} (cfg : WellFormedCfg method.blocks) (short : ShortBlocks method.blocks)
    (enough : (predecessorIds method.blocks).length < n) : ∃ method', copyMethod n method = some method' := by
  let good (blocks : List LlirBlock) : Prop := blocks.map LlirBlock.skeleton = method.blocks.map LlirBlock.skeleton
  have turns (step : FoldStep) (_ : step ∈ method.foldSteps) (blocks : List LlirBlock) (same : good blocks) :
      ∃ blocks', copyStep n blocks step = some blocks' ∧ good blocks' := by
    have edges := edges_of_skeletons same
    obtain ⟨blocks', turned⟩ := copyStep_ends (cfg.of_edges edges) (short.of_skeletons same)
      (by rwa [predecessorIds_of_edges edges]) step
    exact ⟨blocks', turned, ((copyPropagation_replaces n).skeletons turned).trans same⟩
  obtain ⟨blocks', run, -⟩ := foldlM_keeps (show good method.blocks from rfl) turns
  exact ⟨_, congrArg (Option.bind · _) run⟩

/-- The passes keep a program regular. -/
theorem optimized_regular {lowered llir : Llir} (regular : lowered.Regular) (optimized : Optimized lowered llir) :
    llir.Regular := by
  induction optimized with
  | lowered => exact regular
  | folded _ run ih =>
    obtain ⟨methods', passed, run⟩ := except_bind_eq_ok run
    obtain rfl := Except.ok.inj run
    exact ih.after (constantFolding_replaces _) passed
  | propagated _ run ih =>
    obtain ⟨methods', passed, run⟩ := Option.bind_eq_some_iff.mp run
    obtain rfl := Option.some.inj run
    exact ih.after (copyPropagation_replaces _) passed

end Roast.CopyPropagation
