import Roast.Assembly.Arithmetic
import Roast.Assembly.LlirMachine
import Roast.Systems.Search

/-! Constant folding, `cf.c`. The assignments are changed in place, so that later ones see the constants of earlier ones.
An operation without a defined result traps. -/
namespace Roast
open Systems

/-- How the pass can fail: an operation that traps, or a search that is deeper than the bound of the model. -/
inductive FoldError where
  | trap
  | deep
  deriving DecidableEq, Repr

/-- The turns of `for (int32_t i = start_index; i >= 0; i--)` when `start_index` is `count - 1`, which does not fit 31 bits
in blocks of more than 2^31 assignments. -/
def turnsFrom (count : Nat) : Nat := ((BitVec.ofNat 32 count - 1).toInt + 1).toNat

/-- The loop of `find_definition_in_block` backwards over the first `count` assignments of a block. -/
def lastDefinition (assignments : List LlirAssignment) (count : Nat) (identifier : String) : Option LlirAssignment :=
  (assignments.take count).reverse.find? fun assignment => assignment.destination.identifier == identifier

section
variable (blocks : List LlirBlock) (identifier : String)

def blockOf (id : Nat) : Option LlirBlock := blocks.find? fun block => block.id == id

def finalDefinition (id : Nat) : Option LlirAssignment :=
  (blockOf blocks id).bind fun block => lastDefinition block.assignments (turnsFrom block.assignments.length) identifier

def predecessorsOf (id : Nat) : List Nat := (blockOf blocks id).elim [] LlirBlock.predecessors

/-- `find_definition_in_block` before the assignment with number `count`, with the visited blocks and the definitions. -/
def findDefinitionInBlock (n : Nat) (block : LlirBlock) (count : Nat) (state : Search Nat LlirAssignment) :
    Option (Search Nat LlirAssignment) :=
  explore (finalDefinition blocks identifier) (predecessorsOf blocks) n
    (lastDefinition block.assignments (turnsFrom count) identifier) block.predecessors state

def findDefinitions (n : Nat) (block : LlirBlock) (count : Nat) : Option (List LlirAssignment) :=
  (findDefinitionInBlock blocks identifier n block count ([], [])).map Prod.snd

end

def LlirAssignment.constant : LlirAssignment → Option Word
  | .unary .move (.literal literal) _ => some literal
  | _ => none

def allDefinitionsAreConstant : List LlirAssignment → Option Word
  | [] => none
  | first :: rest => if rest.all (fun definition => definition.constant == first.constant) then first.constant else none

def unaryOperation (literal : Word) : LlirUnaryType → Word
  | .move => literal
  | .not => if literal = 0 then 1 else 0
  | .negate => -literal

/-- The results of `binary_operation`, which wrap; a division without a quotient of 64 bits is not defined. -/
def binaryOperation (left right : Word) : LlirBinaryType → Option Word
  | .add => some (left + right)
  | .subtract => some (left - right)
  | .multiply => some (left * right)
  | .divide => if right = 0 ∨ left = BitVec.intMin 64 ∧ right = -1 then none else some (left.sdiv right)
  | .modulo => if right = 0 ∨ left = BitVec.intMin 64 ∧ right = -1 then none else some (left.srem right)
  | .equal => some (if left = right then 1 else 0)
  | .notEqual => some (if left ≠ right then 1 else 0)
  | .less => some (if left.slt right then 1 else 0)
  | .lessEqual => some (if left.sle right then 1 else 0)
  | .greater => some (if right.slt left then 1 else 0)
  | .greaterEqual => some (if right.sle left then 1 else 0)

section
variable (n : Nat) (blocks : List LlirBlock) (block : LlirBlock) (index : Nat)

def optimizeOperand (operand : LlirOperand) : Except FoldError LlirOperand :=
  match operand with
  | .field field =>
    if llirOperandIsFieldGlobal field then .ok operand
    else
      match findDefinitions blocks field.identifier n block index with
      | none => .error .deep
      | some definitions => .ok ((allDefinitionsAreConstant definitions).elim operand LlirOperand.literal)
  | _ => .ok operand

def optimizeUnaryOperation (type : LlirUnaryType) (source : LlirOperand) (destination : LlirField) :
    Except FoldError LlirAssignment := do
  let source ← optimizeOperand n blocks block index source
  match source with
  | .literal literal => return .unary .move (.literal (unaryOperation literal type)) destination
  | _ => return .unary type source destination

def optimizeBinaryOperation (type : LlirBinaryType) (left right : LlirOperand) (destination : LlirField) :
    Except FoldError LlirAssignment := do
  let left ← optimizeOperand n blocks block index left
  let right ← optimizeOperand n blocks block index right
  match left, right with
  | .literal leftLiteral, .literal rightLiteral =>
    match binaryOperation leftLiteral rightLiteral type with
    | none => .error .trap
    | some literal => return .unary .move (.literal literal) destination
  | _, _ => return .binary type left right destination

def optimizeAssignment (assignment : LlirAssignment) : Except FoldError LlirAssignment :=
  match assignment with
  | .unary type source destination => optimizeUnaryOperation n blocks block index type source destination
  | .binary type left right destination => optimizeBinaryOperation n blocks block index type left right destination
  | .arrayUpdate updateIndex value destination => do
    let updateIndex ← optimizeOperand n blocks block index updateIndex
    let value ← optimizeOperand n blocks block index value
    return .arrayUpdate updateIndex value destination
  | .arrayAccess accessIndex array destination guarded => do
    let accessIndex ← optimizeOperand n blocks block index accessIndex
    return .arrayAccess accessIndex array destination guarded
  | .methodCall method arguments destination => do
    let arguments ← arguments.mapM (optimizeOperand n blocks block index)
    return .methodCall method arguments destination

def optimizeTerminal (terminal : LlirTerminal) : Except FoldError LlirTerminal :=
  match terminal with
  | .branch branch => do
    let left ← optimizeOperand n blocks block index branch.left
    let right ← optimizeOperand n blocks block index branch.right
    return .branch { branch with left := left, right := right }
  | .llirReturn source => do
    let source ← optimizeOperand n blocks block index source
    return .llirReturn source
  | _ => .ok terminal

end

inductive FoldStep where
  | assignment (block index : Nat)
  | terminal (block : Nat)
  deriving DecidableEq, Repr

/-- The order of the iteration over the blocks of a method. -/
def LlirMethod.foldSteps (method : LlirMethod) : List FoldStep :=
  (List.range method.blocks.length).flatMap fun block =>
    ((List.range ((method.blocks[block]?.map fun block => block.assignments.length).getD 0)).map
      (FoldStep.assignment block)) ++ [.terminal block]

def foldStep (n : Nat) (blocks : List LlirBlock) (step : FoldStep) : Except FoldError (List LlirBlock) :=
  match step with
  | .assignment position index =>
    match blocks[position]? with
    | none => .ok blocks
    | some block =>
      match block.assignments[index]? with
      | none => .ok blocks
      | some assignment => do
        let assignment ← optimizeAssignment n blocks block index assignment
        return blocks.set position { block with assignments := block.assignments.set index assignment }
  | .terminal position =>
    match blocks[position]? with
    | none => .ok blocks
    | some block => do
      let terminal ← optimizeTerminal n blocks block block.assignments.length block.terminal
      return blocks.set position { block with terminal := terminal }

def foldMethod (n : Nat) (method : LlirMethod) : Except FoldError LlirMethod := do
  let blocks ← method.foldSteps.foldlM (foldStep n) method.blocks
  return { method with blocks := blocks }

def optimizationConstantFolding (n : Nat) (llir : Llir) : Except FoldError Llir := do
  let methods ← llir.methods.mapM (foldMethod n)
  return { llir with methods := methods }

section
variable (blocks : List LlirBlock) (block : LlirBlock) (index : Nat)

/-- The assignments to a name that are the last ones on some path to a position of a block. -/
def ReachingDefinition (identifier : String) (definition : LlirAssignment) : Prop :=
  Reaches (finalDefinition blocks identifier) (predecessorsOf blocks)
    (lastDefinition block.assignments (turnsFrom index) identifier) block.predecessors definition

def ConstantAt (operand : LlirOperand) (value : Word) : Prop :=
  operand = .literal value ∨ ∃ field, operand = .field field ∧ llirOperandIsFieldGlobal field = false ∧
    (∃ definition, ReachingDefinition blocks block index field.identifier definition) ∧
    ∀ definition, ReachingDefinition blocks block index field.identifier definition → definition.constant = some value

end

def StepSafe (blocks : List LlirBlock) : FoldStep → Prop
  | .assignment position index => ∀ block type left right destination, blocks[position]? = some block →
    block.assignments[index]? = some (.binary type left right destination) → (type = .divide ∨ type = .modulo) →
    ∀ dividend divisor, ConstantAt blocks block index left dividend → ConstantAt blocks block index right divisor →
      ¬ divisionTraps dividend divisor
  | .terminal _ => True

def LlirMethod.FoldsSafely (n : Nat) (method : LlirMethod) : Prop :=
  ∀ done step rest blocks, method.foldSteps = done ++ step :: rest →
    done.foldlM (foldStep n) method.blocks = .ok blocks → StepSafe blocks step

private theorem binaryOperation_eq_none_iff {left right : Word} {type : LlirBinaryType} :
    binaryOperation left right type = none ↔ (type = .divide ∨ type = .modulo) ∧ divisionTraps left right := by
  cases type <;> simp [binaryOperation, divisionTraps, or_iff_not_imp_left]

/-- The definitions are constant if there is one and all are of one value. -/
private theorem allDefinitionsAreConstant_eq_some_iff {definitions : List LlirAssignment} {value : Word} :
    allDefinitionsAreConstant definitions = some value ↔
      definitions ≠ [] ∧ ∀ definition ∈ definitions, definition.constant = some value := by
  cases definitions with
  | nil => simp [allDefinitionsAreConstant]
  | cons first rest =>
    rw [allDefinitionsAreConstant, List.forall_mem_cons]
    split
    · rename_i same
      rw [List.all_eq_true] at same
      constructor
      · intro known
        refine ⟨List.cons_ne_nil _ _, known, fun definition mem => ?_⟩
        rw [← known]
        exact eq_of_beq (same definition mem)
      · exact fun all => all.2.1
    · rename_i differs
      constructor
      · intro impossible
        cases impossible
      · rintro ⟨-, known, others⟩
        refine absurd (List.all_eq_true.mpr fun definition mem => ?_) differs
        rw [known, others definition mem]
        exact beq_self_eq_true _

def predecessorIds (blocks : List LlirBlock) : List Nat := blocks.flatMap LlirBlock.predecessors

section
variable {blocks : List LlirBlock} {block : LlirBlock} (mem : block ∈ blocks) {n : Nat}
  (enough : (predecessorIds blocks).length < n) (index : Nat)
include mem enough

/-- The search finds the definitions that reach the point. -/
theorem findDefinitions_spec (identifier : String) : ∃ definitions,
    findDefinitions blocks identifier n block index = some definitions ∧
    ∀ definition, definition ∈ definitions ↔ ReachingDefinition blocks block index identifier definition := by
  have inside {block : LlirBlock} (mem : block ∈ blocks) : block.predecessors ⊆ predecessorIds blocks :=
    fun id listed => List.mem_flatMap.mpr ⟨block, mem, listed⟩
  have next (id : Nat) (_ : finalDefinition blocks identifier id = none) :
      predecessorsOf blocks id ⊆ predecessorIds blocks := by
    rw [predecessorsOf]
    cases found : blockOf blocks id with
    | none => exact List.nil_subset _
    | some block => exact inside (List.mem_of_find?_eq_some found)
  obtain ⟨state, run, spec⟩ := explore_start next
    (fun (_ : lastDefinition block.assignments (turnsFrom index) identifier = none) => inside mem) enough
  exact ⟨state.2, by rw [findDefinitions, findDefinitionInBlock, run]; rfl, spec⟩

/-- An operand becomes the literal exactly if all definitions that reach it have its value. -/
theorem optimizeOperand_spec (operand : LlirOperand) : ∃ operand',
    optimizeOperand n blocks block index operand = .ok operand' ∧
    ∀ value, operand' = .literal value ↔ ConstantAt blocks block index operand value := by
  cases operand with
  | literal literal => exact ⟨.literal literal, rfl, fun value => by simp [ConstantAt]⟩
  | string string => exact ⟨.string string, rfl, fun value => by simp [ConstantAt]⟩
  | field field =>
    rw [optimizeOperand]
    cases isGlobal : llirOperandIsFieldGlobal field with
    | true => exact ⟨.field field, rfl, fun value => by simp [ConstantAt, isGlobal]⟩
    | false =>
      obtain ⟨definitions, found, spec⟩ := findDefinitions_spec mem enough index field.identifier
      rw [found]
      refine ⟨(allDefinitionsAreConstant definitions).elim (.field field) .literal, rfl, fun value => ?_⟩
      have constant : ConstantAt blocks block index (.field field) value ↔
          allDefinitionsAreConstant definitions = some value := by
        rw [allDefinitionsAreConstant_eq_some_iff, ne_eq, List.eq_nil_iff_forall_not_mem, not_forall_not]
        simp [ConstantAt, isGlobal, spec]
      rw [constant]
      cases allDefinitionsAreConstant definitions with
      | none => simp
      | some literal => simp

private theorem optimizeUnaryOperation_spec (type : LlirUnaryType) (source : LlirOperand) (destination : LlirField) :
    ∃ assignment, optimizeUnaryOperation n blocks block index type source destination = .ok assignment := by
  obtain ⟨source', optimized, -⟩ := optimizeOperand_spec mem enough index source
  rw [optimizeUnaryOperation, optimized]
  cases source' with
  | literal literal => exact ⟨_, rfl⟩
  | field field => exact ⟨_, rfl⟩
  | string string => exact ⟨_, rfl⟩

/-- The folding of an operation traps at constants without a result only. -/
private theorem optimizeBinaryOperation_spec (type : LlirBinaryType) (left right : LlirOperand)
    (destination : LlirField) :
    ((∃ assignment, optimizeBinaryOperation n blocks block index type left right destination = .ok assignment) ∨
      optimizeBinaryOperation n blocks block index type left right destination = .error .trap) ∧
    ((∃ assignment, optimizeBinaryOperation n blocks block index type left right destination = .ok assignment) ↔
      ∀ first second, ConstantAt blocks block index left first → ConstantAt blocks block index right second →
        binaryOperation first second type ≠ none) := by
  obtain ⟨left', optimized, constant⟩ := optimizeOperand_spec mem enough index left
  obtain ⟨right', optimized', constant'⟩ := optimizeOperand_spec mem enough index right
  simp only [optimizeBinaryOperation, optimized, optimized', ← constant, ← constant', bind, Except.bind]
  have unfolded (other : ∀ first second, ¬ (left' = .literal first ∧ right' = .literal second))
      (assignment : LlirAssignment) (outcome : Except FoldError LlirAssignment) (same : outcome = .ok assignment) :
      ((∃ assignment, outcome = .ok assignment) ∨ outcome = .error .trap) ∧
      ((∃ assignment, outcome = .ok assignment) ↔ ∀ first second, left' = .literal first → right' = .literal second →
        binaryOperation first second type ≠ none) :=
    ⟨.inl ⟨assignment, same⟩, fun _ first second known known' => absurd ⟨known, known'⟩ (other first second),
      fun _ => ⟨assignment, same⟩⟩
  cases left' with
  | field field => exact unfolded (fun _ _ both => by cases both.1) _ _ rfl
  | string string => exact unfolded (fun _ _ both => by cases both.1) _ _ rfl
  | literal first =>
    cases right' with
    | field field => exact unfolded (fun _ _ both => by cases both.2) _ _ rfl
    | string string => exact unfolded (fun _ _ both => by cases both.2) _ _ rfl
    | literal second =>
      dsimp only
      cases result : binaryOperation first second type with
      | none =>
        refine ⟨.inr rfl, fun ok => ?_, fun safe => absurd result (safe first second rfl rfl)⟩
        obtain ⟨_, ok⟩ := ok
        cases ok
      | some literal =>
        refine ⟨.inl ⟨_, rfl⟩, fun _ first' second' same same' => ?_, fun _ => ⟨_, rfl⟩⟩
        cases same
        cases same'
        rw [result]
        exact Option.some_ne_none _

private theorem optimizeArguments_spec (arguments : List LlirOperand) :
    ∃ arguments', arguments.mapM (optimizeOperand n blocks block index) = .ok arguments' := by
  induction arguments with
  | nil => exact ⟨[], rfl⟩
  | cons argument rest ih =>
    obtain ⟨argument', optimized, -⟩ := optimizeOperand_spec mem enough index argument
    obtain ⟨rest', ih⟩ := ih
    exact ⟨argument' :: rest', by rw [List.mapM_cons, optimized, ih]; rfl⟩

/-- Only divisions of constants trap. -/
private theorem optimizeAssignment_spec (assignment : LlirAssignment) :
    ((∃ assignment', optimizeAssignment n blocks block index assignment = .ok assignment') ∨
      optimizeAssignment n blocks block index assignment = .error .trap) ∧
    ((∃ assignment', optimizeAssignment n blocks block index assignment = .ok assignment') ↔
      ∀ type left right destination, assignment = .binary type left right destination →
        (type = .divide ∨ type = .modulo) → ∀ dividend divisor, ConstantAt blocks block index left dividend →
        ConstantAt blocks block index right divisor → ¬ divisionTraps dividend divisor) := by
  have total (noDivision : ∀ type left right destination, assignment ≠ .binary type left right destination)
      (ok : ∃ assignment', optimizeAssignment n blocks block index assignment = .ok assignment') :
      ((∃ assignment', optimizeAssignment n blocks block index assignment = .ok assignment') ∨
        optimizeAssignment n blocks block index assignment = .error .trap) ∧
      ((∃ assignment', optimizeAssignment n blocks block index assignment = .ok assignment') ↔
        ∀ type left right destination, assignment = .binary type left right destination →
          (type = .divide ∨ type = .modulo) → ∀ dividend divisor, ConstantAt blocks block index left dividend →
          ConstantAt blocks block index right divisor → ¬ divisionTraps dividend divisor) :=
    ⟨.inl ok, fun _ type left right destination same => absurd same (noDivision type left right destination), fun _ => ok⟩
  cases assignment with
  | unary type source destination =>
    exact total (fun _ _ _ _ same => by cases same) (optimizeUnaryOperation_spec mem enough index type source destination)
  | arrayUpdate updateIndex value destination =>
    obtain ⟨updateIndex', optimized, -⟩ := optimizeOperand_spec mem enough index updateIndex
    obtain ⟨value', optimized', -⟩ := optimizeOperand_spec mem enough index value
    exact total (fun _ _ _ _ same => by cases same) ⟨_, by rw [optimizeAssignment, optimized, optimized']; rfl⟩
  | arrayAccess accessIndex array destination guarded =>
    obtain ⟨accessIndex', optimized, -⟩ := optimizeOperand_spec mem enough index accessIndex
    exact total (fun _ _ _ _ same => by cases same) ⟨_, by rw [optimizeAssignment, optimized]; rfl⟩
  | methodCall method arguments destination =>
    obtain ⟨arguments', optimized⟩ := optimizeArguments_spec mem enough index arguments
    exact total (fun _ _ _ _ same => by cases same) ⟨_, by rw [optimizeAssignment, optimized]; rfl⟩
  | binary type left right destination =>
    obtain ⟨either, ok_iff⟩ := optimizeBinaryOperation_spec mem enough index type left right destination
    refine ⟨either, ok_iff.trans ⟨?_, ?_⟩⟩
    · intro defined type' left' right' destination' same division dividend divisor constant constant' traps
      cases same
      exact defined dividend divisor constant constant' (binaryOperation_eq_none_iff.mpr ⟨division, traps⟩)
    · intro safe first second constant constant' undefined
      obtain ⟨division, traps⟩ := binaryOperation_eq_none_iff.mp undefined
      exact safe type left right destination rfl division first second constant constant' traps

private theorem optimizeTerminal_spec (terminal : LlirTerminal) :
    ∃ terminal', optimizeTerminal n blocks block index terminal = .ok terminal' := by
  cases terminal with
  | branch branch =>
    obtain ⟨left, optimized, -⟩ := optimizeOperand_spec mem enough index branch.left
    obtain ⟨right, optimized', -⟩ := optimizeOperand_spec mem enough index branch.right
    exact ⟨_, by rw [optimizeTerminal, optimized, optimized']; rfl⟩
  | llirReturn source =>
    obtain ⟨source', optimized, -⟩ := optimizeOperand_spec mem enough index source
    exact ⟨_, by rw [optimizeTerminal, optimized]; rfl⟩
  | unknown => exact ⟨_, rfl⟩
  | jump block => exact ⟨_, rfl⟩
  | shitYourself returnValue => exact ⟨_, rfl⟩

end

private theorem predecessorIds_set {blocks : List LlirBlock} {position : Nat} {block block' : LlirBlock}
    (at_position : blocks[position]? = some block) (same : block'.predecessors = block.predecessors) :
    predecessorIds (blocks.set position block') = predecessorIds blocks := by
  obtain ⟨inside, rfl⟩ := List.getElem?_eq_some_iff.mp at_position
  rw [predecessorIds, predecessorIds, List.flatMap_def, List.flatMap_def, List.map_set, same]
  congr 1
  have listed : position < (blocks.map LlirBlock.predecessors).length := by rwa [List.length_map]
  rw [← List.getElem_map LlirBlock.predecessors (h := listed)]
  exact List.set_getElem_self listed

/-- A step goes through exactly if it is safe, and otherwise it traps. -/
private theorem foldStep_spec {blocks : List LlirBlock} {n : Nat} (enough : (predecessorIds blocks).length < n)
    (step : FoldStep) :
    ((∃ blocks', foldStep n blocks step = .ok blocks') ∨ foldStep n blocks step = .error .trap) ∧
    ((∃ blocks', foldStep n blocks step = .ok blocks') ↔ StepSafe blocks step) ∧
    ∀ blocks', foldStep n blocks step = .ok blocks' → predecessorIds blocks' = predecessorIds blocks := by
  cases step with
  | assignment position index =>
    rw [foldStep]
    cases at_position : blocks[position]? with
    | none =>
      refine ⟨.inl ⟨blocks, rfl⟩, ⟨fun _ block _ _ _ _ found => ?_, fun _ => ⟨blocks, rfl⟩⟩, fun blocks' same => ?_⟩
      · rw [at_position] at found
        cases found
      · cases same
        rfl
    | some block =>
      have mem := List.mem_of_getElem? at_position
      cases at_index : block.assignments[index]? with
      | none =>
        simp only [at_index]
        refine ⟨.inl ⟨blocks, rfl⟩, ⟨fun _ block' _ _ _ _ found listed => ?_, fun _ => ⟨blocks, rfl⟩⟩, fun blocks' same => ?_⟩
        · rw [at_position] at found
          cases found
          rw [at_index] at listed
          cases listed
        · cases same
          rfl
      | some assignment =>
        simp only [at_index]
        obtain ⟨either, ok_iff⟩ := optimizeAssignment_spec mem enough index assignment
        have safe : (∃ assignment', optimizeAssignment n blocks block index assignment = .ok assignment') ↔
            StepSafe blocks (.assignment position index) := by
          rw [ok_iff]
          constructor
          · intro safe block' type left right destination found listed
            rw [at_position] at found
            cases found
            rw [at_index] at listed
            cases listed
            exact safe type left right destination rfl
          · intro safe type left right destination same
            cases same
            exact safe block type left right destination at_position at_index
        rcases either with ⟨assignment', ok⟩ | trap
        · rw [ok]
          refine ⟨.inl ⟨_, rfl⟩, ⟨fun _ => safe.mp ⟨assignment', ok⟩, fun _ => ⟨_, rfl⟩⟩, fun blocks' same => ?_⟩
          cases same
          exact predecessorIds_set at_position rfl
        · have notSafe : ¬ StepSafe blocks (.assignment position index) := by
            rw [← safe, trap]
            rintro ⟨_, ok⟩
            cases ok
          rw [trap]
          refine ⟨.inr rfl, ⟨fun ok => ?_, fun safe => absurd safe notSafe⟩, fun blocks' same => ?_⟩
          · obtain ⟨_, ok⟩ := ok
            cases ok
          · cases same
  | terminal position =>
    rw [foldStep]
    cases at_position : blocks[position]? with
    | none =>
      refine ⟨.inl ⟨blocks, rfl⟩, ⟨fun _ => trivial, fun _ => ⟨blocks, rfl⟩⟩, fun blocks' same => ?_⟩
      cases same
      rfl
    | some block =>
      obtain ⟨terminal', ok⟩ := optimizeTerminal_spec (List.mem_of_getElem? at_position) enough
        block.assignments.length block.terminal
      simp only [ok]
      refine ⟨.inl ⟨_, rfl⟩, ⟨fun _ => trivial, fun _ => ⟨_, rfl⟩⟩, fun blocks' same => ?_⟩
      cases same
      exact predecessorIds_set at_position rfl

/-- By induction on the steps: a run goes through exactly if all its steps are safe. -/
private theorem foldSteps_spec {n : Nat} (steps : List FoldStep) {blocks : List LlirBlock}
    (enough : (predecessorIds blocks).length < n) :
    ((∃ blocks', steps.foldlM (foldStep n) blocks = .ok blocks') ∨ steps.foldlM (foldStep n) blocks = .error .trap) ∧
    ((∃ blocks', steps.foldlM (foldStep n) blocks = .ok blocks') ↔ ∀ done step rest blocks', steps = done ++ step :: rest →
      done.foldlM (foldStep n) blocks = .ok blocks' → StepSafe blocks' step) := by
  induction steps generalizing blocks with
  | nil =>
    refine ⟨.inl ⟨blocks, rfl⟩, ⟨fun _ done step rest blocks' same => ?_, fun _ => ⟨blocks, rfl⟩⟩⟩
    exact absurd same.symm (by simp)
  | cons step steps ih =>
    obtain ⟨either, ok_iff, kept⟩ := foldStep_spec enough step
    rw [List.foldlM_cons]
    rcases either with ⟨blocks1, ok⟩ | trap
    · have enough1 : (predecessorIds blocks1).length < n := by rwa [kept blocks1 ok]
      obtain ⟨either1, ok_iff1⟩ := ih enough1
      rw [ok]
      refine ⟨either1, ok_iff1.trans ⟨fun safe done step' rest blocks' split run => ?_, fun safe done step' rest blocks' split run => ?_⟩⟩
      · cases done with
        | nil =>
          obtain ⟨rfl, rfl⟩ := List.cons.inj split
          cases run
          exact ok_iff.mp ⟨blocks1, ok⟩
        | cons first done =>
          obtain ⟨rfl, rfl⟩ := List.cons.inj split
          rw [List.foldlM_cons, ok] at run
          exact safe done step' rest blocks' rfl run
      · refine safe (step :: done) step' rest blocks' (by rw [split, List.cons_append]) ?_
        rw [List.foldlM_cons, ok]
        exact run
    · rw [trap]
      refine ⟨.inr rfl, ⟨fun ok => ?_, fun safe => ?_⟩⟩
      · obtain ⟨_, ok⟩ := ok
        cases ok
      · obtain ⟨_, ok⟩ := ok_iff.mpr (safe [] step steps blocks rfl rfl)
        rw [trap] at ok
        cases ok

/-- A method is folded exactly if all steps are safe, and otherwise the compiler traps. -/
theorem foldMethod_spec {n : Nat} {method : LlirMethod} (enough : (predecessorIds method.blocks).length < n) :
    ((∃ method', foldMethod n method = .ok method') ∨ foldMethod n method = .error .trap) ∧
    ((∃ method', foldMethod n method = .ok method') ↔ method.FoldsSafely n) := by
  obtain ⟨either, ok_iff⟩ := foldSteps_spec method.foldSteps enough
  rw [LlirMethod.FoldsSafely, ← ok_iff, foldMethod]
  rcases either with ⟨blocks', ok⟩ | trap
  · rw [ok]
    exact ⟨.inl ⟨_, rfl⟩, fun _ => ⟨_, rfl⟩, fun _ => ⟨_, rfl⟩⟩
  · rw [trap]
    refine ⟨.inr rfl, fun ok => ?_, fun ok => ?_⟩
    all_goals
      obtain ⟨_, ok⟩ := ok
      cases ok

/-- The folding ends or traps, and ends exactly if each method folds safely. -/
theorem foldMethods_spec {n : Nat} {methods : List LlirMethod}
    (enough : ∀ method ∈ methods, (predecessorIds method.blocks).length < n) :
    ((∃ methods', methods.mapM (foldMethod n) = .ok methods') ∨ methods.mapM (foldMethod n) = .error .trap) ∧
    ((∃ methods', methods.mapM (foldMethod n) = .ok methods') ↔ ∀ method ∈ methods, method.FoldsSafely n) := by
  induction methods with
  | nil => exact ⟨.inl ⟨[], rfl⟩, fun _ _ mem => absurd mem List.not_mem_nil, fun _ => ⟨[], rfl⟩⟩
  | cons method rest ih =>
    obtain ⟨either, ok_iff⟩ := foldMethod_spec (enough method List.mem_cons_self)
    obtain ⟨either', ok_iff'⟩ := ih fun other mem => enough other (List.mem_cons_of_mem _ mem)
    rw [List.mapM_cons, List.forall_mem_cons, ← ok_iff, ← ok_iff']
    rcases either with ⟨method', ok⟩ | trap
    · rw [ok]
      rcases either' with ⟨rest', ok'⟩ | trap'
      · rw [ok']
        exact ⟨.inl ⟨_, rfl⟩, fun _ => ⟨⟨_, rfl⟩, ⟨_, rfl⟩⟩, fun _ => ⟨_, rfl⟩⟩
      · rw [trap']
        refine ⟨.inr rfl, fun ok => ?_, fun ok => ?_⟩
        · obtain ⟨_, ok⟩ := ok
          cases ok
        · obtain ⟨_, ok⟩ := ok.2
          cases ok
    · rw [trap]
      refine ⟨.inr rfl, fun ok => ?_, fun ok => ?_⟩
      · obtain ⟨_, ok⟩ := ok
        cases ok
      · obtain ⟨_, ok⟩ := ok.1
        cases ok

theorem unaryOperation_eq (literal : Word) (type : LlirUnaryType) : unaryOperation literal type = type.apply literal := by
  cases type with
  | move => rfl
  | negate => rfl
  | not =>
    rw [unaryOperation, LlirUnaryType.apply, boolWord]
    by_cases zero : literal = 0
    · rw [if_pos zero, if_pos (beq_iff_eq.mpr zero)]
    · rw [if_neg zero, if_neg fun same => zero (eq_of_beq same)]

theorem binaryOperation_eq (left right : Word) (type : LlirBinaryType) :
    binaryOperation left right type = type.apply left right := by
  cases type with
  | equal =>
    rw [binaryOperation, LlirBinaryType.apply, boolWord]
    by_cases same : left = right
    · rw [if_pos same, if_pos (beq_iff_eq.mpr same)]
    · rw [if_neg same, if_neg fun equal => same (eq_of_beq equal)]
  | notEqual =>
    rw [binaryOperation, LlirBinaryType.apply, boolWord]
    by_cases same : left = right
    · rw [if_neg (not_not.mpr same), if_neg (by rw [same, bne_self_eq_false]; exact Bool.false_ne_true)]
    · rw [if_pos same, if_pos (bne_iff_ne.mpr same)]
  | divide => rfl
  | modulo => rfl
  | add => rfl
  | subtract => rfl
  | multiply => rfl
  | less => rfl
  | lessEqual => rfl
  | greater => rfl
  | greaterEqual => rfl

section
variable (g : CodeGenerator) (symbols : String → Word) (s : Processor)

def WordAligned (operand : LlirOperand) : Prop :=
  ∀ field, operand = .field field → (fieldPlace g symbols (s.registers .rbp) field).toNat % 8 = 0

def CodeStores (assignment : LlirAssignment) : Option Word → Prop
  | some value => ∃ s', executeLines symbols s (generateAssignmentLines g assignment) = some s' ∧
    s'.memory = Function.update s.memory (fieldPlace g symbols (s.registers .rbp) assignment.destination) value
  | none => executeLines symbols s (generateAssignmentLines g assignment) = none

def operandValue (operand : LlirOperand) : Word := operandWord g symbols (s.registers .rbp) s.memory operand

theorem codeStores_unary {destination : LlirField} (stored : WordAligned g symbols s (.field destination))
    (type : LlirUnaryType) {source : LlirOperand} (aligned : WordAligned g symbols s source) :
    CodeStores g symbols s (.unary type source destination)
      (some (unaryOperation (operandValue g symbols s source) type)) := by
  rw [unaryOperation_eq]
  exact executeLines_unaryAssignment symbols g (stored destination rfl) type aligned

theorem codeStores_binary {destination : LlirField} (stored : WordAligned g symbols s (.field destination))
    (type : LlirBinaryType) {left right : LlirOperand} (alignedLeft : WordAligned g symbols s left)
    (alignedRight : WordAligned g symbols s right) :
    CodeStores g symbols s (.binary type left right destination)
      (binaryOperation (operandValue g symbols s left) (operandValue g symbols s right) type) := by
  obtain ⟨defined, undefined⟩ :=
    executeLines_binaryAssignment symbols g (stored destination rfl) type alignedLeft alignedRight
  rw [binaryOperation_eq]
  cases result : type.apply (operandValue g symbols s left) (operandValue g symbols s right) with
  | none => exact undefined result
  | some value => exact defined value result

end

end Roast
