import Roast.Systems.Flow
import Roast.Assembly.PhiSlots
import Roast.Assembly.Safety

/-! What `ssa_transform` does to a method: the definitions of each name are numbered in the order of the blocks, and a slot
of a phi gets the version at the end of the block that owns it. -/
namespace Roast
open Systems

def LlirOperand.fields : LlirOperand → List LlirField
  | .field named => [named]
  | _ => []

def LlirAssignment.defined : LlirAssignment → Option LlirField
  | .arrayUpdate _ _ _ => none
  | assignment => some assignment.destination

def LlirAssignment.line (assignment : LlirAssignment) : Option LlirField × List LlirField :=
  (assignment.defined, assignment.operands.flatMap LlirOperand.fields)

/-- The operands of a phi are no uses at its place. -/
def SsaAssignment.line : SsaAssignment → Option LlirField × List LlirField
  | .plain assignment => assignment.line
  | .phi destination _ => (some destination, [])

def SsaBlock.flow (block : SsaBlock) : FlowBlock LlirField where
  id := block.id
  lines := block.assignments.map SsaAssignment.line
  final := block.terminal.operands.flatMap LlirOperand.fields
  successors := block.terminal.successors

def versionField (name : String) (number : Nat) : LlirField :=
  llirFieldNew (name ++ "_" ++ toString number) 0 false 1 none

def version (name : String) (number : Nat) : String :=
  if number = 0 then name else name ++ "_" ++ toString number

def ssaRenaming : Renaming LlirField String where
  name := LlirField.identifier
  use past field :=
    if past.count field.identifier ≤ 1 then field else versionField field.identifier (past.count field.identifier - 1)
  define past field :=
    if past.count field.identifier = 0 then field else versionField field.identifier (past.count field.identifier)

private theorem versionField_identifier {name : String} {number : Nat} (later : number ≠ 0) :
    (versionField name number).identifier = version name number := by
  rw [version, if_neg later]
  rfl

theorem ssaRenaming_numbers : ssaRenaming.Numbers version where
  use past field := by
    show LlirField.identifier (ite _ _ _) = version field.identifier (past.count field.identifier - 1)
    split_ifs with few
    · rw [show past.count field.identifier - 1 = 0 by omega]
      rfl
    · exact versionField_identifier (by omega)
  define past field := by
    show LlirField.identifier (ite _ _ _) = version field.identifier (past.count field.identifier)
    split_ifs with first
    · rw [first]
      rfl
    · exact versionField_identifier first

theorem use_identifier (past : List String) (field : LlirField) : (ssaRenaming.use past field).identifier =
    version field.identifier (past.count field.identifier - 1) := ssaRenaming_numbers.use past field

theorem define_identifier (past : List String) (field : LlirField) : (ssaRenaming.define past field).identifier =
    version field.identifier (past.count field.identifier) := ssaRenaming_numbers.define past field

structure SsaContext.Knows (ssa : SsaContext) (past : List String) : Prop where
  counters : ∀ name, ssa.counters name = past.count name
  newFields : ∀ name, 1 < past.count name → ssa.newFields name = some (versionField name (past.count name - 1))

theorem ssaContextNew_knows : ssaContextNew.Knows [] :=
  ⟨fun _ => rfl, fun name later => absurd later (by simp)⟩

section
variable {ssa : SsaContext} {past : List String} (knows : ssa.Knows past)
include knows

private theorem SsaContext.Knows.renamed_field (field : LlirField) :
    ssa.renamed (.field field) = .field (ssaRenaming.use past field) := by
  simp only [SsaContext.renamed, SsaContext.renameOperand, ssaRenaming, knows.counters]
  by_cases few : past.count field.identifier ≤ 1
  · rw [if_pos few, if_pos few]
    rfl
  · rw [if_neg few, if_neg few, knows.newFields field.identifier (not_le.mp few)]
    rfl

private theorem SsaContext.Knows.renamed_fields (operand : LlirOperand) :
    (ssa.renamed operand).fields = operand.fields.map (ssaRenaming.use past) := by
  cases operand with
  | field field =>
    rw [knows.renamed_field]
    rfl
  | literal literal => rfl
  | string string => rfl

theorem SsaContext.Knows.renamed_operands (operands : List LlirOperand) :
    (operands.map ssa.renamed).flatMap LlirOperand.fields =
      (operands.flatMap LlirOperand.fields).map (ssaRenaming.use past) := by
  rw [List.flatMap_map, List.map_flatMap]
  congr 1
  funext operand
  exact knows.renamed_fields operand

end

theorem LlirAssignment.renameOperands_operands (rename : LlirOperand → LlirOperand) (assignment : LlirAssignment) :
    (assignment.renameOperands rename).operands = assignment.operands.map rename := by
  cases assignment <;> rfl

theorem LlirAssignment.renameOperands_defined (rename : LlirOperand → LlirOperand) (assignment : LlirAssignment) :
    (assignment.renameOperands rename).defined = assignment.defined := by
  cases assignment <;> rfl

theorem LlirTerminal.renameOperands_operands (rename : LlirOperand → LlirOperand) (terminal : LlirTerminal) :
    (terminal.renameOperands rename).operands = terminal.operands.map rename := by
  cases terminal <;> rfl

theorem SsaContext.Knows.renameOperands_line {ssa : SsaContext} {past : List String} (knows : ssa.Knows past)
    (assignment : SsaAssignment) : (assignment.renameOperands ssa.renamed).line =
      (assignment.line.1, assignment.line.2.map (ssaRenaming.use past)) := by
  cases assignment with
  | plain assignment =>
    show (LlirAssignment.defined _, _) = (assignment.defined, _)
    rw [assignment.renameOperands_defined, assignment.renameOperands_operands, knows.renamed_operands]
    rfl
  | phi destination slots => rfl

/-- One more definition of a name. -/
theorem SsaContext.Knows.define {ssa : SsaContext} {past : List String} (knows : ssa.Knows past) (name : String)
    {newFields : String → Option LlirField}
    (next : newFields = if past.count name = 0 then ssa.newFields else
      Function.update ssa.newFields name (some (versionField name (past.count name)))) :
    SsaContext.Knows { ssa with counters := Function.update ssa.counters name (ssa.counters name + 1), newFields := newFields }
      (past ++ [name]) := by
  constructor
  · intro other
    dsimp only
    rw [List.count_append, List.count_singleton]
    by_cases same : other = name
    · subst same
      rw [Function.update_self, knows.counters, if_pos (beq_self_eq_true _)]
    · rw [Function.update_of_ne same, knows.counters, if_neg (by simpa using Ne.symm same), Nat.add_zero]
  · intro other later
    subst next
    dsimp only
    rw [List.count_append, List.count_singleton] at later ⊢
    by_cases same : other = name
    · subst same
      rw [if_pos (beq_self_eq_true _)] at later ⊢
      rw [if_neg (by omega), Function.update_self, Nat.add_sub_cancel]
    · have different : ¬ (name == other) = true := by simpa using Ne.symm same
      rw [if_neg different, Nat.add_zero] at later ⊢
      split_ifs with first
      · exact knows.newFields other later
      · rw [Function.update_of_ne same]
        exact knows.newFields other later

private theorem SsaAssignment.withDestination_line {assignment : SsaAssignment} (destination : LlirField)
    {field : LlirField}
    (defined : assignment.line.1 = some field) :
    (assignment.withDestination destination).line = (some destination, assignment.line.2) := by
  cases assignment with
  | phi destination slots => rfl
  | plain assignment =>
    cases assignment with
    | arrayUpdate index value destination => cases defined
    | _ => rfl

theorem SsaAssignment.destination_of_defined {assignment : SsaAssignment} {field : LlirField}
    (defined : assignment.line.1 = some field) : assignment.destination = field := by
  cases assignment with
  | phi destination slots => exact Option.some.inj defined
  | plain assignment =>
    cases assignment with
    | arrayUpdate index value destination => cases defined
    | _ => exact Option.some.inj defined

theorem SsaContext.renameDestination_of_none (ssa : SsaContext) {assignment : SsaAssignment}
    (none : assignment.line.1 = none) : ssa.renameDestination assignment = (ssa, [], assignment) := by
  cases assignment with
  | phi destination slots => cases none
  | plain assignment =>
    cases assignment with
    | arrayUpdate index value destination => rfl
    | _ => cases none

/-- The first definition keeps its name, a later one takes the next version. -/
theorem SsaContext.renameDestination_of_defined (ssa : SsaContext) {assignment : SsaAssignment} {field : LlirField}
    (defined : assignment.line.1 = some field) : ssa.renameDestination assignment =
      if ssa.counters field.identifier = 0 then
        ({ ssa with counters := Function.update ssa.counters field.identifier (ssa.counters field.identifier + 1) }, [],
          assignment)
      else
        ({ ssa with
            counters := Function.update ssa.counters field.identifier (ssa.counters field.identifier + 1)
            newFields := Function.update ssa.newFields field.identifier
              (some (versionField field.identifier (ssa.counters field.identifier))) },
          [versionField field.identifier (ssa.counters field.identifier)],
          assignment.withDestination (versionField field.identifier (ssa.counters field.identifier))) := by
  rw [← assignment.destination_of_defined defined]
  cases assignment with
  | phi destination slots => rfl
  | plain assignment =>
    cases assignment with
    | arrayUpdate index value destination => cases defined
    | _ => rfl

/-- The destination of an assignment gets the next version of its name. -/
theorem SsaContext.Knows.renameDestination {ssa : SsaContext} {past : List String} (knows : ssa.Knows past)
    (assignment : SsaAssignment) :
    (ssa.renameDestination assignment).1.Knows (past ++ (assignment.line.1.map LlirField.identifier).toList) ∧
      (ssa.renameDestination assignment).2.2.line =
        (assignment.line.1.map (ssaRenaming.define past), assignment.line.2) := by
  cases defined : assignment.line.1 with
  | none =>
    rw [ssa.renameDestination_of_none defined]
    exact ⟨(List.append_nil past).symm ▸ knows, Prod.ext defined rfl⟩
  | some field =>
    have after {newFields : String → Option LlirField} := @SsaContext.Knows.define ssa past knows field.identifier newFields
    rw [ssa.renameDestination_of_defined defined, Option.map_some, Option.map_some, Option.toList_some]
    rw [knows.counters] at after ⊢
    by_cases first : past.count field.identifier = 0
    · rw [if_pos first]
      refine ⟨after (if_pos first).symm, Prod.ext (defined.trans ?_) rfl⟩
      exact congrArg some (if_pos first).symm
    · rw [if_neg first]
      refine ⟨after (if_neg first).symm, (assignment.withDestination_line _ defined).trans (Prod.ext ?_ rfl)⟩
      exact congrArg some (if_neg first).symm

/-- The loop over the assignments of a block. -/
theorem SsaContext.Knows.transformAssignments {ssa : SsaContext} {past : List String} (knows : ssa.Knows past)
    (assignments : List SsaAssignment) :
    (ssa.transformAssignments assignments).1.Knows
        (past ++ definedNames LlirField.identifier (assignments.map SsaAssignment.line)) ∧
      (ssa.transformAssignments assignments).2.2.map SsaAssignment.line =
        ssaRenaming.renameLines past (assignments.map SsaAssignment.line) := by
  induction assignments generalizing ssa past with
  | nil => exact ⟨(List.append_nil past).symm ▸ knows, rfl⟩
  | cons assignment rest ih =>
    obtain ⟨next, line⟩ := knows.renameDestination (assignment.renameOperands ssa.renamed)
    rw [knows.renameOperands_line] at next line
    obtain ⟨last, lines⟩ := ih next
    rw [SsaContext.transformAssignments, List.map_cons, definedNames_cons, ← List.append_assoc]
    refine ⟨last, ?_⟩
    rw [List.map_cons, Renaming.renameLines, line, lines]
    rfl

def SsaAssignment.blank : SsaAssignment → SsaAssignment
  | .plain assignment => .plain assignment
  | .phi destination _ => .phi destination []

def SsaBlock.blank (block : SsaBlock) : SsaBlock := { block with assignments := block.assignments.map SsaAssignment.blank }

def SsaContext.transformed (ssa : SsaContext) (block : SsaBlock) : SsaBlock :=
  { block with
    fields := block.fields ++ (ssa.transformAssignments block.assignments).2.1
    assignments := (ssa.transformAssignments block.assignments).2.2
    terminal := block.terminal.renameOperands (ssa.transformAssignments block.assignments).1.renamed }

def SsaContext.after (ssa : SsaContext) (block : SsaBlock) : SsaContext := (ssa.transformAssignments block.assignments).1

def SsaContext.transformedBlocks (ssa : SsaContext) : List SsaBlock → List SsaBlock
  | [] => []
  | block :: rest => ssa.transformed block :: (ssa.after block).transformedBlocks rest

private theorem SsaAssignment.blank_line (assignment : SsaAssignment) : assignment.blank.line = assignment.line := by
  cases assignment <;> rfl

private theorem SsaAssignment.blank_renameOperands (rename : LlirOperand → LlirOperand) (assignment : SsaAssignment) :
    assignment.blank.renameOperands rename = (assignment.renameOperands rename).blank := by
  cases assignment <;> rfl

private theorem SsaAssignment.blank_withDestination (destination : LlirField) (assignment : SsaAssignment) :
    assignment.blank.withDestination destination = (assignment.withDestination destination).blank := by
  cases assignment <;> rfl

private theorem SsaContext.renameDestination_blank (ssa : SsaContext) (assignment : SsaAssignment) :
    ssa.renameDestination assignment.blank =
      ((ssa.renameDestination assignment).1, (ssa.renameDestination assignment).2.1,
        (ssa.renameDestination assignment).2.2.blank) := by
  cases defined : assignment.line.1 with
  | none =>
    rw [ssa.renameDestination_of_none defined, ssa.renameDestination_of_none (assignment.blank_line ▸ defined)]
  | some field =>
    rw [ssa.renameDestination_of_defined defined, ssa.renameDestination_of_defined (assignment.blank_line ▸ defined),
      assignment.blank_withDestination]
    split_ifs <;> rfl

/-- The slots make no difference to the loop over the assignments. -/
private theorem SsaContext.transformAssignments_blank (ssa : SsaContext) (assignments : List SsaAssignment) :
    ssa.transformAssignments (assignments.map SsaAssignment.blank) =
      ((ssa.transformAssignments assignments).1, (ssa.transformAssignments assignments).2.1,
        (ssa.transformAssignments assignments).2.2.map SsaAssignment.blank) := by
  induction assignments generalizing ssa with
  | nil => rfl
  | cons assignment rest ih =>
    rw [List.map_cons, transformAssignments, transformAssignments, assignment.blank_renameOperands,
      ssa.renameDestination_blank]
    dsimp only
    rw [ih]
    rfl

private theorem SsaContext.after_blank (ssa : SsaContext) (block : SsaBlock) :
    ssa.after block.blank = ssa.after block := by
  rw [after, after, SsaBlock.blank, transformAssignments_blank]

private theorem SsaContext.transformed_blank (ssa : SsaContext) (block : SsaBlock) :
    ssa.transformed block.blank = (ssa.transformed block).blank := by
  have run := ssa.transformAssignments_blank block.assignments
  rw [transformed, SsaBlock.blank]
  dsimp only
  rw [run]
  rfl

private theorem SsaContext.renamePhiOperands_blank (ssa : SsaContext) (source : Nat) (block : SsaBlock) :
    (ssa.renamePhiOperands source block).blank = block.blank := by
  rw [SsaBlock.blank, SsaBlock.blank, renamePhiOperands, List.map_map]
  congr 2
  funext assignment
  cases assignment <;> rfl

private theorem updateBlock_blank {change : SsaBlock → SsaBlock} (same : ∀ block, (change block).blank = block.blank)
    (id : Nat)
    (blocks : List SsaBlock) : (updateBlock id change blocks).map SsaBlock.blank = blocks.map SsaBlock.blank := by
  rw [updateBlock, List.map_map]
  refine List.map_congr_left fun block _ => ?_
  rw [Function.comp_apply]
  split
  · exact same block
  · rfl

private theorem updateBlocks_blank {change : SsaBlock → SsaBlock} (same : ∀ block, (change block).blank = block.blank)
    (ids : List Nat) (blocks : List SsaBlock) :
    (ids.foldl (fun blocks id => updateBlock id change blocks) blocks).map SsaBlock.blank = blocks.map SsaBlock.blank := by
  induction ids generalizing blocks with
  | nil => rfl
  | cons id rest ih => exact (ih _).trans (updateBlock_blank same id blocks)

private theorem transformBlock_run {state : SsaContext × List SsaBlock} {position : Nat} {block : SsaBlock}
    (at_ : state.2[position]? = some block) : transformBlock state position = (state.1.after block,
      block.terminal.successors.foldl
        (fun blocks next => updateBlock next ((state.1.after block).renamePhiOperands block.id) blocks)
        (state.2.set position (state.1.transformed block))) := by
  rw [transformBlock, at_, ← block.terminal.renameOperands_successors (state.1.after block).renamed]
  rfl

private theorem SsaContext.transformedBlocks_getElem? (ssa : SsaContext) (blocks : List SsaBlock) (position : Nat) :
    (ssa.transformedBlocks blocks)[position]? =
      blocks[position]?.map ((blocks.take position).foldl SsaContext.after ssa).transformed := by
  induction blocks generalizing ssa position with
  | nil => rfl
  | cons block rest ih =>
    cases position with
    | zero => rfl
    | succ position =>
      rw [transformedBlocks, List.getElem?_cons_succ, ih, List.getElem?_cons_succ, List.take_succ_cons, List.foldl_cons]

private theorem SsaContext.transformedBlocks_length (ssa : SsaContext) (blocks : List SsaBlock) :
    (ssa.transformedBlocks blocks).length = blocks.length := by
  induction blocks generalizing ssa with
  | nil => rfl
  | cons block rest ih => exact congrArg (· + 1) (ih _)

structure TransformedTo (blocks : List SsaBlock) (n : Nat) (state : SsaContext × List SsaBlock) : Prop where
  context : state.1 = (blocks.take n).foldl SsaContext.after ssaContextNew
  blocks : state.2.map SsaBlock.blank =
    ((ssaContextNew.transformedBlocks blocks).take n ++ blocks.drop n).map SsaBlock.blank

theorem TransformedTo.block {blocks : List SsaBlock} {n : Nat} {state : SsaContext × List SsaBlock}
    (h : TransformedTo blocks n state) (inside : n < blocks.length) :
    ∃ block, state.2[n]? = some block ∧ block.blank = blocks[n].blank := by
  have here := congrArg (·[n]?) h.blocks
  rw [List.getElem?_map, List.getElem?_map, List.getElem?_append_right, List.length_take,
    ssaContextNew.transformedBlocks_length, Nat.min_eq_left inside.le, Nat.sub_self, List.getElem?_drop, Nat.add_zero,
    List.getElem?_eq_getElem inside] at here
  · obtain ⟨block, at_, same⟩ := Option.map_eq_some_iff.mp here
    exact ⟨block, at_, same⟩
  · exact (List.length_take_le _ _)

/-- A turn of the transformation renames one more block. -/
theorem TransformedTo.next {blocks : List SsaBlock} {n : Nat} {state : SsaContext × List SsaBlock}
    (h : TransformedTo blocks n state) (inside : n < blocks.length) :
    TransformedTo blocks (n + 1) (transformBlock state n) := by
  obtain ⟨block, at_, same⟩ := h.block inside
  have before : (blocks.take n).length = n := by rw [List.length_take, Nat.min_eq_left inside.le]
  have length := ssaContextNew.transformedBlocks_length blocks
  have after : state.1.after block = state.1.after blocks[n] := by
    rw [← state.1.after_blank, same, state.1.after_blank]
  have transformed : (state.1.transformed block).blank = (state.1.transformed blocks[n]).blank := by
    rw [← state.1.transformed_blank, same, state.1.transformed_blank]
  have new : (ssaContextNew.transformedBlocks blocks)[n]? = some (state.1.transformed blocks[n]) := by
    rw [ssaContextNew.transformedBlocks_getElem?, List.getElem?_eq_getElem inside, h.context]
    rfl
  rw [transformBlock_run at_]
  constructor
  · rw [List.take_succ_eq_append_getElem inside, List.foldl_append, ← h.context]
    exact after
  · dsimp only
    rw [updateBlocks_blank (fun other => SsaContext.renamePhiOperands_blank _ _ other), List.map_set, h.blocks, transformed,
      ← List.map_set, List.set_append_right _ _ (by rw [List.length_take]; omega), List.length_take, length,
      Nat.min_eq_left inside.le, Nat.sub_self, List.drop_eq_getElem_cons inside, List.set_cons_zero,
      List.take_add_one, new, Option.toList_some, List.append_assoc, List.singleton_append]

theorem transformMethod_blank (method : LlirMethod) : (transformMethod method).blocks.map SsaBlock.blank =
    (ssaContextNew.transformedBlocks method.placed).map SsaBlock.blank := by
  have run := @foldl_range_keeps _ transformBlock (TransformedTo method.placed) (ssaContextNew, method.placed)
    method.placed.length ⟨rfl, rfl⟩ fun n inside state h => h.next inside
  have all := run.blocks
  rw [List.take_of_length_le (ssaContextNew.transformedBlocks_length _).le, List.drop_length, List.append_nil] at all
  exact all

private theorem SsaBlock.blank_flow (block : SsaBlock) : block.blank.flow = block.flow := by
  rw [flow, flow, blank, List.map_map]
  congr 2
  funext assignment
  exact assignment.blank_line

private theorem SsaContext.Knows.transformed_flow {ssa : SsaContext} {past : List String} (knows : ssa.Knows past)
    (block : SsaBlock) :
    (ssa.transformed block).flow = ssaRenaming.renameBlock past block.flow := by
  obtain ⟨after, lines⟩ := knows.transformAssignments block.assignments
  have final := after.renamed_operands block.terminal.operands
  rw [SsaBlock.flow, SsaContext.transformed, Renaming.renameBlock]
  dsimp only
  rw [lines, LlirTerminal.renameOperands_operands, final, LlirTerminal.renameOperands_successors]
  rfl

private theorem SsaContext.Knows.transformedBlocks_flow {ssa : SsaContext} {past : List String} (knows : ssa.Knows past)
    (blocks : List SsaBlock) : (ssa.transformedBlocks blocks).map SsaBlock.flow =
      ssaRenaming.renameBlocks past (blocks.map SsaBlock.flow) := by
  induction blocks generalizing ssa past with
  | nil => rfl
  | cons block rest ih =>
    have later := ih (knows.transformAssignments block.assignments).1
    rw [transformedBlocks, List.map_cons, knows.transformed_flow]
    exact congrArg (_ :: ·) later

/-- `transform_method` renames the variables in the order of the blocks. -/
theorem transformMethod_flow (method : LlirMethod) : (transformMethod method).blocks.map SsaBlock.flow =
    ssaRenaming.renameBlocks [] (method.placed.map SsaBlock.flow) := by
  have blanks (blocks : List SsaBlock) : blocks.map SsaBlock.flow = (blocks.map SsaBlock.blank).map SsaBlock.flow := by
    rw [List.map_map]
    exact List.map_congr_left fun block _ => block.blank_flow.symm
  rw [blanks, transformMethod_blank, ← blanks, ssaContextNew_knows.transformedBlocks_flow]

private theorem claimRenamed_mem {rename : LlirOperand → Option LlirOperand} {block : Nat} {slots slots' : List PhiSlot}
    (claimed : claimRenamed rename block slots = some slots') {slot : PhiSlot} (mem : slot ∈ slots') :
    slot ∈ slots ∨ ∃ operand, (operand, none) ∈ slots ∧ rename operand = some slot.1 ∧ slot.2 = some block := by
  induction slots generalizing slots' with
  | nil => cases claimed
  | cons first rest ih =>
    have later (next : ∃ rest', claimRenamed rename block rest = some rest' ∧ first :: rest' = slots') :
        slot ∈ first :: rest ∨
          ∃ operand, (operand, none) ∈ first :: rest ∧ rename operand = some slot.1 ∧ slot.2 = some block := by
      obtain ⟨rest', run, rfl⟩ := next
      obtain rfl | mem := List.mem_cons.mp mem
      · exact .inl List.mem_cons_self
      · refine (ih run mem).imp (List.mem_cons_of_mem _) ?_
        rintro ⟨operand, free, rest⟩
        exact ⟨operand, List.mem_cons_of_mem _ free, rest⟩
    obtain ⟨operand, owner⟩ := first
    cases owner with
    | some owner => exact later (Option.map_eq_some_iff.mp claimed)
    | none =>
      cases renamed : rename operand with
      | none =>
        rw [claimRenamed, renamed] at claimed
        exact later (Option.map_eq_some_iff.mp claimed)
      | some operand' =>
        rw [claimRenamed, renamed] at claimed
        obtain rfl := Option.some.inj claimed
        obtain rfl | mem := List.mem_cons.mp mem
        · exact .inr ⟨operand, List.mem_cons_self, renamed, rfl⟩
        · exact .inl (List.mem_cons_of_mem _ mem)

/-- Where nothing is claimed, no free slot has a renamed operand. -/
private theorem claimRenamed_eq_none {rename : LlirOperand → Option LlirOperand} {block : Nat} {slots : List PhiSlot}
    (none : claimRenamed rename block slots = none) {operand : LlirOperand} (free : (operand, .none) ∈ slots) :
    rename operand = .none := by
  induction slots with
  | nil => cases free
  | cons first rest ih =>
    obtain ⟨other, owner⟩ := first
    cases owner with
    | some owner =>
      obtain same | free := List.mem_cons.mp free
      · cases same
      · exact ih (Option.map_eq_none_iff.mp none) free
    | none =>
      cases renamed : rename other with
      | some operand' =>
        rw [claimRenamed, renamed] at none
        cases none
      | none =>
        rw [claimRenamed, renamed] at none
        obtain same | free := List.mem_cons.mp free
        · cases same
          exact renamed
        · exact ih (Option.map_eq_none_iff.mp none) free

private theorem claimLast_mem {block : Nat} {slots slots' : List PhiSlot}
    (claimed : claimLast block slots = some slots')
    {slot : PhiSlot} (mem : slot ∈ slots') : slot ∈ slots ∨ (slot.1, none) ∈ slots ∧ slot.2 = some block := by
  induction slots generalizing slots' with
  | nil => cases claimed
  | cons first rest ih =>
    obtain ⟨operand, owner⟩ := first
    cases later : claimLast block rest with
    | some rest' =>
      simp only [claimLast, later, Option.some.injEq] at claimed
      subst claimed
      obtain rfl | mem := List.mem_cons.mp mem
      · exact .inl List.mem_cons_self
      · refine (ih later mem).imp (List.mem_cons_of_mem _) ?_
        exact And.imp_left (List.mem_cons_of_mem _)
    | none =>
      cases owner with
      | some owner => simp [claimLast, later] at claimed
      | none =>
        simp only [claimLast, later, Option.some.injEq] at claimed
        subst claimed
        obtain rfl | mem := List.mem_cons.mp mem
        · exact .inr ⟨List.mem_cons_self, rfl⟩
        · exact .inl (List.mem_cons_of_mem _ mem)

/-- What the slots of a phi hold: the variable where a slot is free, and otherwise what is right for its owner. -/
structure SlotsRight (good : LlirField → Nat → LlirOperand → Prop) (field : LlirField) (slots : List PhiSlot) : Prop where
  free : ∀ operand, (operand, none) ∈ slots → operand = .field field
  owned : ∀ operand owner, (operand, some owner) ∈ slots → good field owner operand

/-- An edge claims a slot with what the context makes of the variable. -/
theorem SlotsRight.claimSlot {good : LlirField → Nat → LlirOperand → Prop} {field : LlirField} {slots : List PhiSlot}
    (right : SlotsRight good field slots) {ssa : SsaContext} {source : Nat}
    (claim : good field source (ssa.renamed (.field field))) :
    SlotsRight good field (claimSlot ssa.renameOperand source slots) := by
  have each (slot : PhiSlot) (mem : slot ∈ Roast.claimSlot ssa.renameOperand source slots) :
      slot ∈ slots ∨ slot = (ssa.renamed (.field field), some source) := by
    rw [Roast.claimSlot] at mem
    cases first : claimRenamed ssa.renameOperand source slots with
    | some slots' =>
      rw [first] at mem
      obtain old | ⟨operand, free, renamed, owner⟩ := claimRenamed_mem first mem
      · exact .inl old
      · rw [right.free operand free] at renamed
        refine .inr (Prod.ext ?_ owner)
        rw [SsaContext.renamed, renamed]
        rfl
    | none =>
      rw [first, Option.none_or] at mem
      cases second : claimLast source slots with
      | none =>
        rw [second] at mem
        exact .inl mem
      | some slots' =>
        rw [second] at mem
        obtain old | ⟨free, owner⟩ := claimLast_mem second mem
        · exact .inl old
        · have same := right.free slot.1 free
          have unchanged := claimRenamed_eq_none first free
          refine .inr (Prod.ext ?_ owner)
          rw [same] at unchanged
          rw [SsaContext.renamed, unchanged]
          exact same
  constructor
  · intro operand mem
    obtain old | new := each _ mem
    · exact right.free operand old
    · cases new
  · intro operand owner mem
    obtain old | new := each _ mem
    · exact right.owned operand owner old
    · cases new
      exact claim

inductive PhiOf (good : LlirField → Nat → LlirOperand → Prop) : SsaAssignment → SsaAssignment → Prop where
  | plain (assignment assignment' : LlirAssignment) : PhiOf good (.plain assignment) (.plain assignment')
  | phi (field : LlirField) (slots : List PhiSlot) (destination : LlirField) {slots' : List PhiSlot}
    (right : SlotsRight good field slots') : PhiOf good (.phi field slots) (.phi destination slots')

def PhisOf (good : LlirField → Nat → LlirOperand → Prop) (original block : SsaBlock) : Prop :=
  List.Forall₂ (PhiOf good) original.assignments block.assignments

section
variable {good good' : LlirField → Nat → LlirOperand → Prop} {original block : SsaBlock}

theorem PhisOf.mono (h : PhisOf good original block) (weaker : ∀ field owner operand, good field owner operand → good' field owner operand) :
    PhisOf good' original block := by
  refine List.Forall₂.imp (fun assignment assignment' phi => ?_) h
  cases phi with
  | plain => exact .plain _ _
  | phi field slots destination right =>
    exact .phi field slots destination ⟨right.free, fun operand owner mem => weaker _ _ _ (right.owned operand owner mem)⟩

theorem PhisOf.renamePhiOperands (h : PhisOf good original block) {ssa : SsaContext} {source : Nat}
    (claim : ∀ field, good field source (ssa.renamed (.field field))) :
    PhisOf good original (ssa.renamePhiOperands source block) := by
  refine List.forall₂_map_right_iff.mpr (List.Forall₂.imp (fun assignment assignment' phi => ?_) h)
  cases phi with
  | plain => exact .plain _ _
  | phi field slots destination right => exact .phi field slots destination (right.claimSlot (claim field))

theorem PhiOf.renameDestination {assignment assignment' : SsaAssignment} (h : PhiOf good assignment assignment')
    (ssa : SsaContext) : PhiOf good assignment (ssa.renameDestination (assignment'.renameOperands ssa.renamed)).2.2 := by
  cases h with
  | plain before after =>
    cases defined : (SsaAssignment.renameOperands ssa.renamed (.plain after)).line.1 with
    | none =>
      rw [ssa.renameDestination_of_none defined]
      exact .plain _ _
    | some field =>
      rw [ssa.renameDestination_of_defined defined]
      split_ifs
      · exact .plain _ _
      · exact .plain _ _
  | @phi field slots destination slots' right =>
    have defined : (SsaAssignment.renameOperands ssa.renamed (.phi destination slots')).line.1 = some destination := rfl
    rw [ssa.renameDestination_of_defined defined]
    split_ifs
    · exact .phi field slots _ right
    · exact .phi field slots _ right

private theorem PhisOf.transformed (h : PhisOf good original block) (ssa : SsaContext) :
    PhisOf good original (ssa.transformed block) := by
  have loop (assignments originals : List SsaAssignment) (ssa : SsaContext)
      (h : List.Forall₂ (PhiOf good) originals assignments) :
      List.Forall₂ (PhiOf good) originals (ssa.transformAssignments assignments).2.2 := by
    induction h generalizing ssa with
    | nil => exact .nil
    | cons first _ ih => exact .cons (first.renameDestination ssa) (ih _)
  exact loop _ _ ssa h

end

def EndsBefore (blocks : List (FlowBlock LlirField)) (n : Nat) (field : LlirField) (owner : Nat) (operand : LlirOperand) : Prop :=
  ∃ position block, position < n ∧ blocks[position]? = some block ∧ block.id = owner ∧
    operand = .field (ssaRenaming.use (definedBefore LlirField.identifier blocks position block.lines.length) field)

private theorem SsaContext.Knows.afterBlocks {ssa : SsaContext} {past : List String} (knows : ssa.Knows past)
    (blocks : List SsaBlock) : SsaContext.Knows (blocks.foldl SsaContext.after ssa)
      (past ++ definedNames LlirField.identifier ((blocks.map SsaBlock.flow).flatMap FlowBlock.lines)) := by
  induction blocks generalizing ssa past with
  | nil => exact (List.append_nil past).symm ▸ knows
  | cons block rest ih =>
    have later := ih (knows.transformAssignments block.assignments).1
    rw [List.append_assoc, ← definedNames_append] at later
    exact later

def SlotsOf (good : LlirField → Nat → LlirOperand → Prop) (originals blocks : List SsaBlock) : Prop :=
  ∀ (position : Nat) (original block : SsaBlock), originals[position]? = some original → blocks[position]? = some block →
    PhisOf good original block

/-- Renaming the phis of the successors claims slots for good operands only. -/
theorem SlotsOf.renamePhis {good : LlirField → Nat → LlirOperand → Prop} {originals blocks : List SsaBlock}
    (h : SlotsOf good originals blocks) {ssa : SsaContext} {source : Nat}
    (claim : ∀ field, good field source (ssa.renamed (.field field))) (targets : List Nat) :
    SlotsOf good originals
      (targets.foldl (fun blocks next => updateBlock next (ssa.renamePhiOperands source) blocks) blocks) := by
  induction targets generalizing blocks with
  | nil => exact h
  | cons target rest ih =>
    refine ih fun position original block from_ at_ => ?_
    have updated : (updateBlock target (ssa.renamePhiOperands source) blocks)[position]? = some block := at_
    rw [updateBlock, List.getElem?_map] at updated
    obtain ⟨old, here, rfl⟩ := Option.map_eq_some_iff.mp updated
    have before := h position original old from_ here
    split
    · exact before.renamePhiOperands claim
    · exact before

/-- One turn: the slots that its edges claim hold what is right at the end of its block. -/
theorem SlotsOf.next {blocks : List SsaBlock} {n : Nat} {state : SsaContext × List SsaBlock}
    (h : SlotsOf (EndsBefore (blocks.map SsaBlock.flow) n) blocks state.2) (transformed : TransformedTo blocks n state)
    (inside : n < blocks.length) :
    SlotsOf (EndsBefore (blocks.map SsaBlock.flow) (n + 1)) blocks (transformBlock state n).2 := by
  obtain ⟨block, at_, same⟩ := transformed.block inside
  have flow : block.flow = blocks[n].flow := by rw [← block.blank_flow, same, blocks[n].blank_flow]
  have here : (blocks.map SsaBlock.flow)[n]? = some block.flow := by
    rw [List.getElem?_map, List.getElem?_eq_getElem inside, flow]
    rfl
  have context := ssaContextNew_knows.afterBlocks (blocks.take n)
  rw [List.nil_append, ← transformed.context, List.map_take] at context
  have ends : SsaContext.Knows (state.1.after block)
      (definedBefore LlirField.identifier (blocks.map SsaBlock.flow) n block.flow.lines.length) := by
    rw [definedBefore_eq here, List.take_length]
    exact (context.transformAssignments block.assignments).1
  rw [transformBlock_run at_]
  have mono {original other : SsaBlock} (right : PhisOf (EndsBefore (blocks.map SsaBlock.flow) n) original other) :
      PhisOf (EndsBefore (blocks.map SsaBlock.flow) (n + 1)) original other := by
    refine right.mono ?_
    rintro field owner operand ⟨position, source, earlier, rest⟩
    exact ⟨position, source, Nat.lt_succ_of_lt earlier, rest⟩
  refine SlotsOf.renamePhis (fun position original other from_ placed => ?_) (fun field => ?_) _
  · by_cases turn : position = n
    · subst turn
      rw [List.getElem?_set_self (List.getElem?_eq_some_iff.mp at_).1] at placed
      obtain rfl := Option.some.inj placed
      exact mono ((h position original block from_ at_).transformed state.1)
    · rw [List.getElem?_set_ne (Ne.symm turn)] at placed
      exact mono (h position original other from_ placed)
  · exact ⟨n, block.flow, Nat.lt_succ_self n, here, rfl, ends.renamed_field field⟩

/-- The variables that meet in a block with several edges into it: the parameters and what the blocks before it declare,
but for the temporaries of one expression. -/
def LlirMethod.merged (method : LlirMethod) (position : Nat) (block : LlirBlock) : List LlirField :=
  if block.predecessors.length > 1 then
    ((method.arguments ++ (method.blocks.take position).flatMap LlirBlock.fields).filter fun field =>
      field.identifier.toList.head? ≠ some '$').reverse
  else []

def LlirMethod.flowBlock (method : LlirMethod) (position : Nat) (block : LlirBlock) : FlowBlock LlirField where
  id := block.id
  lines := (method.merged position block).map (fun field => (some field, [])) ++ block.assignments.map LlirAssignment.line
  final := block.terminal.operands.flatMap LlirOperand.fields
  successors := block.terminal.successors

def LlirMethod.flow (method : LlirMethod) : List (FlowBlock LlirField) := method.blocks.mapIdx method.flowBlock

/-- A block with several predecessors begins with a phi for each field that meets there. -/
private theorem SsaContext.placePhis_getElem? (ssa : SsaContext) (blocks : List SsaBlock) (position : Nat) :
    (ssa.placePhis blocks)[position]? = blocks[position]?.map fun block =>
      if block.predecessors.length > 1 then
        (ssa.addDefinedFields ((blocks.take position).flatMap SsaBlock.fields)).createPhiAssignments block
      else block := by
  induction blocks generalizing ssa position with
  | nil => rfl
  | cons block rest ih =>
    cases position with
    | zero => simp [placePhis, addDefinedFields]
    | succ position =>
      have grown (fields fields' : List LlirField) : (ssa.addDefinedFields fields).addDefinedFields fields' =
          ssa.addDefinedFields (fields ++ fields') := by
        simp [addDefinedFields, List.append_assoc]
      rw [placePhis, List.getElem?_cons_succ, ih, List.getElem?_cons_succ, List.take_succ_cons, List.flatMap_cons, grown]

/-- The blocks before the renaming: the phis and the old assignments. -/
theorem LlirMethod.placed_getElem? (method : LlirMethod) (position : Nat) :
    method.placed[position]? = method.blocks[position]?.map fun block =>
      { block.toSsa with assignments := (method.merged position block).map (newPhi · block.predecessors) ++
          block.assignments.map .plain } := by
  rw [placed, SsaContext.placePhis_getElem?, List.getElem?_map, Option.map_map, ← List.map_take, List.flatMap_map]
  congr 1
  funext block
  rw [Function.comp_apply, merged]
  by_cases several : block.predecessors.length > 1
  · rw [if_pos several]
    have several : block.toSsa.predecessors.length > 1 := several
    rw [if_pos several, SsaContext.createPhiAssignments, List.map_reverse]
    simp [SsaContext.addDefinedFields, ssaContextNew, LlirBlock.toSsa]
  · rw [if_neg several]
    have several : ¬ block.toSsa.predecessors.length > 1 := several
    rw [if_neg several]
    rfl

theorem LlirMethod.placed_flow (method : LlirMethod) : method.placed.map SsaBlock.flow = method.flow := by
  apply List.ext_getElem?
  intro position
  rw [flow, List.getElem?_mapIdx, List.getElem?_map, placed_getElem?, Option.map_map]
  congr 1
  funext block
  rw [Function.comp_apply, SsaBlock.flow, List.map_append, List.map_map, List.map_map]
  rfl

/-- A new phi has all its slots free. -/
private theorem LlirMethod.placed_slots (method : LlirMethod) (good : LlirField → Nat → LlirOperand → Prop) :
    SlotsOf good method.placed method.placed := by
  intro position original block from_ at_
  obtain rfl := Option.some.inj (from_.symm.trans at_)
  rw [method.placed_getElem?] at at_
  obtain ⟨block, -, rfl⟩ := Option.map_eq_some_iff.mp at_
  refine List.forall₂_same.mpr fun assignment mem => ?_
  obtain mem | mem := List.mem_append.mp mem
  · obtain ⟨field, -, rfl⟩ := List.mem_map.mp mem
    refine .phi field _ field ⟨fun operand free => ?_, fun operand owner owned => ?_⟩
    · obtain ⟨-, -, same⟩ := List.mem_map.mp free
      exact (congrArg Prod.fst same).symm
    · obtain ⟨-, -, same⟩ := List.mem_map.mp owned
      cases congrArg Prod.snd same
  · obtain ⟨assignment, -, rfl⟩ := List.mem_map.mp mem
    exact .plain _ _

/-- The operands of the phis are the versions at the ends of the blocks that they are paired with. -/
theorem transformMethod_slots (method : LlirMethod) :
    SlotsOf (EndsBefore (method.placed.map SsaBlock.flow) method.placed.length) method.placed
      (transformMethod method).blocks := by
  have run := @foldl_range_keeps _ transformBlock (fun n state => TransformedTo method.placed n state ∧
    SlotsOf (EndsBefore (method.placed.map SsaBlock.flow) n) method.placed state.2) (ssaContextNew, method.placed)
    method.placed.length ⟨⟨rfl, rfl⟩, method.placed_slots _⟩ fun n inside state h => ⟨h.1.next inside, h.2.next h.1 inside⟩
  exact run.2

end Roast
