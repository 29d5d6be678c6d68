import Roast.Optimizations.ReachingDefinitions

/-! Copy propagation, `cp.c`. The assignments are changed in place. -/
namespace Roast.CopyPropagation

def copiedField : LlirAssignment → Option LlirField
  | .unary .move (.field field) _ => if llirOperandIsFieldGlobal field then none else some field
  | _ => none

def canPropagateCopy (definitions : List LlirAssignment) (mutated : List String) : Option LlirField :=
  match definitions with
  | [] => none
  | first :: rest =>
    (copiedField first).filter fun field =>
      (rest.all fun definition => (copiedField definition).any fun other => field.identifier == other.identifier) &&
        !mutated.contains field.identifier

section
variable (n : Nat) (blocks : List LlirBlock) (block : LlirBlock) (index : Nat)

/-- `optimize_operand` at the assignment with number `index`; `none` when the search is deeper than `n`. -/
def optimizeOperand (operand : LlirOperand) : Option LlirOperand :=
  match operand with
  | .field field =>
    if llirOperandIsFieldGlobal field then some operand
    else (findDefinitions blocks field.identifier n block index).map fun (definitions, mutated) =>
      (canPropagateCopy (definitions.map LlirDefinition.assignment) mutated).elim operand LlirOperand.field
  | _ => some operand

def optimizeAssignment (assignment : LlirAssignment) : Option LlirAssignment :=
  match assignment with
  | .unary type source destination => do
    let source ← optimizeOperand n blocks block index source
    return .unary type source destination
  | .binary type left right destination => do
    let left ← optimizeOperand n blocks block index left
    let right ← optimizeOperand n blocks block index right
    return .binary type left right destination
  | .arrayUpdate updateIndex value destination => do
    let updateIndex ← optimizeOperand n blocks block index updateIndex
    let value ← optimizeOperand n blocks block index value
    return .arrayUpdate updateIndex value destination
  | .arrayAccess accessIndex array destination guarded => do
    let accessIndex ← optimizeOperand n blocks block index accessIndex
    return .arrayAccess accessIndex array destination guarded
  | .methodCall method arguments destination => do
    let arguments ← arguments.mapM (optimizeOperand n blocks block index)
    return .methodCall method arguments destination

def optimizeTerminal (terminal : LlirTerminal) : Option LlirTerminal :=
  match terminal with
  | .branch branch => do
    let left ← optimizeOperand n blocks block index branch.left
    let right ← optimizeOperand n blocks block index branch.right
    return .branch { branch with left := left, right := right }
  | .llirReturn source => do
    let source ← optimizeOperand n blocks block index source
    return .llirReturn source
  | terminal => some terminal

end

def copyStep (n : Nat) (blocks : List LlirBlock) (step : FoldStep) : Option (List LlirBlock) :=
  match step with
  | .assignment position index =>
    match blocks[position]? with
    | none => some blocks
    | some block =>
      match block.assignments[index]? with
      | none => some blocks
      | some assignment => do
        let assignment ← optimizeAssignment n blocks block index assignment
        return blocks.set position { block with assignments := block.assignments.set index assignment }
  | .terminal position =>
    match blocks[position]? with
    | none => some blocks
    | some block => do
      let terminal ← optimizeTerminal n blocks block block.assignments.length block.terminal
      return blocks.set position { block with terminal := terminal }

def copyMethod (n : Nat) (method : LlirMethod) : Option LlirMethod := do
  let blocks ← method.foldSteps.foldlM (copyStep n) method.blocks
  return { method with blocks := blocks }

def optimizationCopyPropagation (n : Nat) (llir : Llir) : Option Llir := do
  let methods ← llir.methods.mapM (copyMethod n)
  return { llir with methods := methods }

end Roast.CopyPropagation
