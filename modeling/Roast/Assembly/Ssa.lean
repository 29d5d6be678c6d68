import Roast.Assembly.Layout

/-! Static single assignment form, `ssa.c`: phi assignments where several edges meet, the renaming of the scalars, and the
way back. A phi keeps the parallel arrays `phi_arguments` and `phi_blocks` as one list of slots. -/
namespace Roast

/-- An argument of a phi and the predecessor that it comes from, `none` for `NULL`. -/
abbrev PhiSlot := LlirOperand × Option Nat

inductive SsaAssignment where
  | plain (assignment : LlirAssignment)
  | phi (destination : LlirField) (slots : List PhiSlot)
  deriving DecidableEq, Repr

structure SsaBlock where
  id : Nat
  fields : List LlirField
  assignments : List SsaAssignment
  terminal : LlirTerminal
  predecessors : List Nat
  deriving DecidableEq, Repr

structure SsaMethod where
  identifier : String
  arguments : List LlirField
  blocks : List SsaBlock
  deriving DecidableEq, Repr

structure SsaProgram where
  fields : List LlirField
  methods : List SsaMethod
  deriving DecidableEq, Repr

structure SsaContext where
  definedFields : List LlirField
  counters : String → Nat
  newFields : String → Option LlirField

def LlirBlock.toSsa (block : LlirBlock) : SsaBlock :=
  { id := block.id, fields := block.fields, assignments := block.assignments.map .plain, terminal := block.terminal
    predecessors := block.predecessors }

/-- `rename_operand`; `none` when it returns false. -/
def SsaContext.renameOperand (ssa : SsaContext) : LlirOperand → Option LlirOperand
  | .field field =>
    if ssa.counters field.identifier ≤ 1 then none
    else some (.field ((ssa.newFields field.identifier).getD field))
  | _ => none

def SsaContext.renamed (ssa : SsaContext) (operand : LlirOperand) : LlirOperand :=
  (ssa.renameOperand operand).getD operand

section
variable (rename : LlirOperand → LlirOperand)

def LlirAssignment.renameOperands : LlirAssignment → LlirAssignment
  | .unary type source destination => .unary type (rename source) destination
  | .binary type left right destination => .binary type (rename left) (rename right) destination
  | .arrayUpdate index value destination => .arrayUpdate (rename index) (rename value) destination
  | .arrayAccess index array destination guarded => .arrayAccess (rename index) array destination guarded
  | .methodCall method arguments destination => .methodCall method (arguments.map rename) destination

def SsaAssignment.renameOperands : SsaAssignment → SsaAssignment
  | .plain assignment => .plain (assignment.renameOperands rename)
  | .phi destination slots => .phi destination slots

def LlirTerminal.renameOperands : LlirTerminal → LlirTerminal
  | .branch comparison => .branch { comparison with left := rename comparison.left, right := rename comparison.right }
  | .llirReturn source => .llirReturn (rename source)
  | terminal => terminal

end

def LlirAssignment.withDestination (destination : LlirField) : LlirAssignment → LlirAssignment
  | .unary type source _ => .unary type source destination
  | .binary type left right _ => .binary type left right destination
  | .arrayUpdate index value _ => .arrayUpdate index value destination
  | .arrayAccess index array _ guarded => .arrayAccess index array destination guarded
  | .methodCall method arguments _ => .methodCall method arguments destination

def SsaAssignment.destination : SsaAssignment → LlirField
  | .plain assignment => assignment.destination
  | .phi destination _ => destination

def SsaAssignment.withDestination (destination : LlirField) : SsaAssignment → SsaAssignment
  | .plain assignment => .plain (assignment.withDestination destination)
  | .phi _ slots => .phi destination slots

/-- `rename_destination`: the context, the field that the block gets and the assignment. The first definition of a name
keeps it. -/
def SsaContext.renameDestination (ssa : SsaContext) (assignment : SsaAssignment) :
    SsaContext × List LlirField × SsaAssignment :=
  match assignment with
  | .plain (.arrayUpdate _ _ _) => (ssa, [], assignment)
  | _ =>
    let identifier := assignment.destination.identifier
    let counter := ssa.counters identifier
    let ssa := { ssa with counters := Function.update ssa.counters identifier (counter + 1) }
    if counter = 0 then (ssa, [], assignment)
    else
      let field := llirFieldNew (identifier ++ "_" ++ toString counter) 0 false 1 none
      ({ ssa with newFields := Function.update ssa.newFields identifier (some field) }, [field],
        assignment.withDestination field)

def SsaContext.transformAssignments (ssa : SsaContext) :
    List SsaAssignment → SsaContext × List LlirField × List SsaAssignment
  | [] => (ssa, [], [])
  | assignment :: rest =>
    let first := ssa.renameDestination (assignment.renameOperands ssa.renamed)
    let later := first.1.transformAssignments rest
    (later.1, first.2.1 ++ later.2.1, first.2.2 :: later.2.2)

/-- The first free slot with an argument that can be renamed gets the renamed argument and the block. -/
def claimRenamed (rename : LlirOperand → Option LlirOperand) (block : Nat) : List PhiSlot → Option (List PhiSlot)
  | [] => none
  | (operand, some other) :: rest => (claimRenamed rename block rest).map ((operand, some other) :: ·)
  | (operand, none) :: rest =>
    match rename operand with
    | some operand => some ((operand, some block) :: rest)
    | none => (claimRenamed rename block rest).map ((operand, none) :: ·)

/-- The last free slot gets the block. -/
def claimLast (block : Nat) : List PhiSlot → Option (List PhiSlot)
  | [] => none
  | (operand, owner) :: rest =>
    match claimLast block rest, owner with
    | some rest, _ => some ((operand, owner) :: rest)
    | none, none => some ((operand, some block) :: rest)
    | none, some _ => none

/-- One turn of the outer loop of `rename_phi_operands`. -/
def claimSlot (rename : LlirOperand → Option LlirOperand) (block : Nat) (slots : List PhiSlot) : List PhiSlot :=
  ((claimRenamed rename block slots).or (claimLast block slots)).getD slots

def SsaAssignment.claimSlot (rename : LlirOperand → Option LlirOperand) (block : Nat) : SsaAssignment → SsaAssignment
  | .plain assignment => .plain assignment
  | .phi destination slots => .phi destination (Roast.claimSlot rename block slots)

def SsaContext.renamePhiOperands (ssa : SsaContext) (block : Nat) (next : SsaBlock) : SsaBlock :=
  { next with assignments := next.assignments.map (SsaAssignment.claimSlot ssa.renameOperand block) }

/-- A change of the block that a pointer leads to. -/
def updateBlock (id : Nat) (change : SsaBlock → SsaBlock) (blocks : List SsaBlock) : List SsaBlock :=
  blocks.map fun block => if block.id = id then change block else block

def transformBlock (state : SsaContext × List SsaBlock) (position : Nat) : SsaContext × List SsaBlock :=
  match state.2[position]? with
  | none => state
  | some block =>
    let result := state.1.transformAssignments block.assignments
    let terminal := block.terminal.renameOperands result.1.renamed
    let blocks := state.2.set position
      { block with fields := block.fields ++ result.2.1, assignments := result.2.2, terminal := terminal }
    (result.1, terminal.successors.foldl
      (fun blocks next => updateBlock next (result.1.renamePhiOperands block.id) blocks) blocks)

def SsaContext.addDefinedFields (ssa : SsaContext) (fields : List LlirField) : SsaContext :=
  { ssa with definedFields := ssa.definedFields ++
      fields.filter fun field => field.identifier.toList.head? ≠ some '$' }

/-- `llir_assignment_new_phi` with one argument for each predecessor. -/
def newPhi (field : LlirField) (predecessors : List Nat) : SsaAssignment :=
  .phi field (predecessors.map fun _ => (.field field, none))

/-- `create_phi_assignments`, which puts each phi in front of the ones before. -/
def SsaContext.createPhiAssignments (ssa : SsaContext) (block : SsaBlock) : SsaBlock :=
  { block with assignments :=
      (ssa.definedFields.map fun field => newPhi field block.predecessors).reverse ++ block.assignments }

/-- The first loop of `transform_method`. -/
def SsaContext.placePhis (ssa : SsaContext) : List SsaBlock → List SsaBlock
  | [] => []
  | block :: rest =>
    (if block.predecessors.length > 1 then ssa.createPhiAssignments block else block) ::
      (ssa.addDefinedFields block.fields).placePhis rest

def ssaContextNew : SsaContext :=
  { definedFields := [], counters := fun _ => 0, newFields := fun _ => none }

def transformMethod (method : LlirMethod) : SsaMethod :=
  let ssa := ssaContextNew.addDefinedFields method.arguments
  let blocks := ssa.placePhis (method.blocks.map LlirBlock.toSsa)
  { identifier := method.identifier, arguments := method.arguments
    blocks := ((List.range blocks.length).foldl transformBlock (ssaContextNew, blocks)).2 }

def ssaTransform (llir : Llir) : SsaProgram :=
  { fields := llir.fields, methods := llir.methods.map transformMethod }

def SsaBlock.addCopy (destination : LlirField) (operand : LlirOperand) (block : SsaBlock) : SsaBlock :=
  let field := llirFieldNew destination.identifier 0 false 1 none
  { block with
    fields := block.fields ++ [field]
    assignments := block.assignments ++ [.plain (.unary .move operand field)] }

/-- `remove_phi_operands`; `none` when the assertion fails. -/
def removePhiOperands (destination : LlirField) : List PhiSlot → List SsaBlock → Option (List SsaBlock)
  | [], blocks => some blocks
  | (_, none) :: _, _ => none
  | (operand, some block) :: rest, blocks =>
    removePhiOperands destination rest (updateBlock block (SsaBlock.addCopy destination operand) blocks)

/-- `inverse_transform_block`; the copies that it adds to the block itself are no phis. -/
def inverseTransformBlock (blocks : List SsaBlock) (position : Nat) : Option (List SsaBlock) :=
  match blocks[position]? with
  | none => some blocks
  | some block => block.assignments.foldlM (fun blocks assignment =>
    match assignment with
    | .plain _ => some blocks
    | .phi destination slots => removePhiOperands destination slots blocks) blocks

def SsaBlock.removePhiAssignments (block : SsaBlock) : SsaBlock :=
  { block with assignments := block.assignments.filter fun assignment =>
      match assignment with
      | .plain _ => true
      | .phi _ _ => false }

def inverseTransformMethod (method : SsaMethod) : Option SsaMethod := do
  let blocks ← (List.range method.blocks.length).foldlM inverseTransformBlock method.blocks
  return { method with blocks := blocks.map SsaBlock.removePhiAssignments }

/-- `ssa_inverse_transform`; `none` when an assertion fails. -/
def ssaInverseTransform (program : SsaProgram) : Option SsaProgram := do
  let methods ← program.methods.mapM inverseTransformMethod
  return { program with methods := methods }

end Roast
