import Roast.Optimizations.Propagation
import Roast.Optimizations.Sweeps

/-! The constants that folding finds, as a property of the blocks before the pass: an assignment yields a constant if its
operands are known, and a local is known if all definitions that reach it agree on one. The pass has folded a definition that
it comes to before the use, and sees a later one as it stands. -/
namespace Roast
open Systems

mutual

/-- The operands of the definition are known, and this is what it computes. -/
inductive Yields (blocks : List LlirBlock) : LlirDefinition → Word → Prop where
  | unary {block index : Nat} {type : LlirUnaryType} {source : LlirOperand} {destination : LlirField} {value : Word}
    (known : KnownAt blocks (block, index) source value) :
    Yields blocks ⟨block, index, .unary type source destination⟩ (unaryOperation value type)
  | binary {block index : Nat} {type : LlirBinaryType} {left right : LlirOperand} {destination : LlirField}
    {first second value : Word} (knownLeft : KnownAt blocks (block, index) left first)
    (knownRight : KnownAt blocks (block, index) right second) (result : binaryOperation first second type = some value) :
    Yields blocks ⟨block, index, .binary type left right destination⟩ value

/-- The operand is a literal, or a local to which all definitions that reach the point give the value. -/
inductive KnownAt (blocks : List LlirBlock) : Nat × Nat → LlirOperand → Word → Prop where
  | literal {point : Nat × Nat} {value : Word} : KnownAt blocks point (.literal value) value
  | field {point : Nat × Nat} {field : LlirField} {value : Word} (isLocal : llirOperandIsFieldGlobal field = false)
    (reached : ∃ definition : LlirDefinition, definition.ReachesPoint blocks field.identifier point)
    (before : ∀ definition : LlirDefinition, definition.ReachesPoint blocks field.identifier point →
      Earlier blocks (definition.block, definition.index) point → Yields blocks definition value)
    (later : ∀ definition : LlirDefinition, definition.ReachesPoint blocks field.identifier point →
      ¬ Earlier blocks (definition.block, definition.index) point → definition.assignment.constant = some value) :
    KnownAt blocks point (.field field) value

end

/-- No division of known operands is without a quotient. -/
def LlirMethod.DivisionsDefined (method : LlirMethod) : Prop :=
  ∀ block ∈ method.blocks, ∀ index type left right destination,
    block.assignments[index]? = some (.binary type left right destination) → (type = .divide ∨ type = .modulo) →
    ∀ dividend divisor, KnownAt method.blocks (block.id, index) left dividend →
      KnownAt method.blocks (block.id, index) right divisor → ¬ divisionTraps dividend divisor

def Folded (blocks : List LlirBlock) (point : Nat × Nat) (assignment assignment' : LlirAssignment) : Prop :=
  ∀ value, assignment'.constant = some value ↔ Yields blocks ⟨point.1, point.2, assignment⟩ value

/-- What the search of the folding finds. -/
private theorem reachingDefinition_iff {blocks : List LlirBlock} (cfg : WellFormedCfg blocks)
    (short : ShortBlocks blocks)
    {block : LlirBlock} (mem : block ∈ blocks) {index : Nat} (inside : index ≤ block.assignments.length)
    (identifier : String) (assignment : LlirAssignment) : ReachingDefinition blocks block index identifier assignment ↔
      ∃ definition : LlirDefinition, definition.ReachesPoint blocks identifier (block.id, index) ∧
        definition.assignment = assignment := by
  obtain ⟨definitions, mutated, located, -, -, exactly, -⟩ :=
    CopyPropagation.findDefinitions_spec cfg short mem inside identifier (Nat.lt_succ_self (predecessorIds blocks).length)
  obtain ⟨found, listed, spec⟩ :=
    findDefinitions_spec mem (Nat.lt_succ_self (predecessorIds blocks).length) index identifier
  rw [findDefinitions_eq, located, Option.map_some] at listed
  obtain rfl := Option.some.inj listed
  rw [← spec, List.mem_map]
  exact exists_congr fun definition => and_congr_left fun _ => exactly definition

section
variable {method : LlirMethod} {n : Nat} (cfg : WellFormedCfg method.blocks) (short : ShortBlocks method.blocks)
include cfg short

/-- When the pass comes to a point, the constants that it finds there are the known ones. -/
private theorem constantAt_iff {done rest : List FoldStep} {step : FoldStep}
    (split : method.foldSteps = done ++ step :: rest)
    {blocks : List LlirBlock} (swept : method.Swept (Folded method.blocks) done blocks) {block : LlirBlock} {index : Nat}
    {operands : List LlirOperand} (visit : step.visit blocks = some (block, index, operands)) (operand : LlirOperand)
    (value : Word) : ConstantAt blocks block index operand value ↔ KnownAt method.blocks (block.id, index) operand value := by
  obtain ⟨_, _, _, here, _, _, inside, -⟩ := swept.visit split visit
  have reaching := reachingDefinition_iff (cfg.of_edges (edges_of_skeletons swept.skeletons))
    (short.of_skeletons swept.skeletons) (List.mem_of_getElem? here) inside
  constructor
  · rintro (rfl | ⟨field, rfl, isLocal, ⟨assignment, reaches⟩, all⟩)
    · exact .literal
    · have constant {definition : LlirDefinition}
          (current : definition.ReachesPoint blocks field.identifier (block.id, index)) :
          definition.assignment.constant = some value := all _ ((reaching _ _).mpr ⟨definition, current, rfl⟩)
      obtain ⟨definition, found, -⟩ := (reaching _ _).mp reaches
      obtain ⟨original, reaches, -⟩ := swept.exists_original split cfg.distinct visit found
      refine .field isLocal ⟨original, reaches⟩ (fun definition reaches precedes => ?_) fun definition reaches follows => ?_
      · obtain ⟨definition', current, folded, -⟩ := swept.exists_current split cfg.distinct visit reaches
        exact (folded precedes value).mp (constant current)
      · obtain ⟨definition', current, -, same⟩ := swept.exists_current split cfg.distinct visit reaches
        exact same follows ▸ constant current
  · intro known
    cases known with
    | literal => exact .inl rfl
    | @field _ field _ isLocal reached before later =>
      refine .inr ⟨field, rfl, isLocal, ?_, fun assignment reaches => ?_⟩
      · obtain ⟨definition, reaches⟩ := reached
        obtain ⟨definition', current, -⟩ := swept.exists_current split cfg.distinct visit reaches
        exact ⟨definition'.assignment, (reaching _ _).mpr ⟨definition', current, rfl⟩⟩
      · obtain ⟨definition', current, rfl⟩ := (reaching _ _).mp reaches
        obtain ⟨definition, original, folded, same⟩ := swept.exists_original split cfg.distinct visit current
        by_cases precedes : Earlier method.blocks (definition.block, definition.index) (block.id, index)
        · exact (folded precedes value).mpr (before _ original precedes)
        · rw [same precedes]
          exact later _ original precedes

section
variable {done rest : List FoldStep} {step : FoldStep} (split : method.foldSteps = done ++ step :: rest)
  {blocks : List LlirBlock} (swept : method.Swept (Folded method.blocks) done blocks)
  (enough : (predecessorIds blocks).length < n) {block : LlirBlock} (mem : block ∈ blocks) {index : Nat}
  {operands : List LlirOperand} (visit : step.visit blocks = some (block, index, operands))
include cfg short split swept enough mem visit

/-- An operand becomes a literal exactly if its value is known. -/
private theorem optimizeOperand_literal_iff {operand operand' : LlirOperand}
    (found : optimizeOperand n blocks block index operand = .ok operand') (value : Word) :
    operand' = .literal value ↔ KnownAt method.blocks (block.id, index) operand value := by
  obtain ⟨other, found', constant⟩ := optimizeOperand_spec mem enough index operand
  obtain rfl := Except.ok.inj (found.symm.trans found')
  rw [constant, constantAt_iff cfg short split swept visit]

private theorem optimizeUnaryOperation_folded {type : LlirUnaryType} {source : LlirOperand} {destination : LlirField}
    {assignment' : LlirAssignment}
    (optimized : optimizeUnaryOperation n blocks block index type source destination = .ok assignment') :
    Folded method.blocks (block.id, index) (.unary type source destination) assignment' := by
  intro value
  obtain ⟨source', found, optimized⟩ := except_bind_eq_ok optimized
  have known := optimizeOperand_literal_iff cfg short split swept enough mem visit found
  constructor
  · intro constant
    cases source' with
    | literal literal =>
      obtain rfl := Except.ok.inj optimized
      obtain rfl := Option.some.inj constant
      exact .unary ((known literal).mp rfl)
    | field | string =>
      obtain rfl := Except.ok.inj optimized
      cases type <;> cases constant
  · rintro (⟨yields⟩ | _)
    obtain rfl := (known _).mpr yields
    obtain rfl := Except.ok.inj optimized
    rfl

private theorem optimizeBinaryOperation_folded {type : LlirBinaryType} {left right : LlirOperand}
    {destination : LlirField} {assignment' : LlirAssignment}
    (optimized : optimizeBinaryOperation n blocks block index type left right destination = .ok assignment') :
    Folded method.blocks (block.id, index) (.binary type left right destination) assignment' := by
  intro value
  obtain ⟨left', found, optimized⟩ := except_bind_eq_ok optimized
  obtain ⟨right', found', optimized⟩ := except_bind_eq_ok optimized
  have knownLeft := optimizeOperand_literal_iff cfg short split swept enough mem visit found
  have knownRight := optimizeOperand_literal_iff cfg short split swept enough mem visit found'
  split at optimized
  · rename_i first second _
    cases result : binaryOperation first second type with
    | none =>
      rw [result] at optimized
      cases optimized
    | some literal =>
      rw [result] at optimized
      obtain rfl := Except.ok.inj optimized
      constructor
      · intro constant
        exact .binary ((knownLeft first).mp rfl) ((knownRight second).mp rfl) (result.trans constant)
      · rintro (_ | ⟨yields, yields', computed⟩)
        obtain rfl := LlirOperand.literal.inj ((knownLeft _).mpr yields)
        obtain rfl := LlirOperand.literal.inj ((knownRight _).mpr yields')
        exact result.symm.trans computed
  · rename_i unknown
    obtain rfl := Except.ok.inj optimized
    constructor
    · rintro ⟨⟩
    · rintro (_ | ⟨yields, yields', -⟩)
      exact absurd ((knownRight _).mpr yields') (unknown _ _ ((knownLeft _).mpr yields))

end

/-- What the folding makes of an assignment is a constant exactly if the operands are known. -/
private theorem optimizeAssignment_folded {done rest : List FoldStep} {blocks : List LlirBlock} {position index : Nat}
    (split : method.foldSteps = done ++ .assignment position index :: rest)
    (swept : method.Swept (Folded method.blocks) done blocks) (enough : (predecessorIds blocks).length < n)
    {block : LlirBlock} (here : blocks[position]? = some block) {assignment assignment' : LlirAssignment}
    (listed : block.assignments[index]? = some assignment)
    (optimized : optimizeAssignment n blocks block index assignment = .ok assignment') :
    Folded method.blocks (block.id, index) assignment assignment' := by
  have mem := List.mem_of_getElem? here
  have visit : FoldStep.visit blocks (.assignment position index) = some (block, index, assignment.operands) := by
    simp [FoldStep.visit, here, listed]
  cases assignment with
  | unary type source destination =>
    exact optimizeUnaryOperation_folded cfg short split swept enough mem visit optimized
  | binary type left right destination =>
    exact optimizeBinaryOperation_folded cfg short split swept enough mem visit optimized
  | arrayUpdate updateIndex stored destination =>
    obtain ⟨updateIndex', -, optimized⟩ := except_bind_eq_ok optimized
    obtain ⟨stored', -, optimized⟩ := except_bind_eq_ok optimized
    obtain rfl := Except.ok.inj optimized
    intro value
    constructor <;> rintro ⟨⟩
  | arrayAccess accessIndex array destination guarded =>
    obtain ⟨accessIndex', -, optimized⟩ := except_bind_eq_ok optimized
    obtain rfl := Except.ok.inj optimized
    intro value
    constructor <;> rintro ⟨⟩
  | methodCall name arguments destination =>
    obtain ⟨arguments', -, optimized⟩ := except_bind_eq_ok optimized
    obtain rfl := Except.ok.inj optimized
    intro value
    constructor <;> rintro ⟨⟩

variable (enough : (predecessorIds method.blocks).length < n)
include enough

/-- By induction on the turns: what they have folded is what the definitions yield. -/
private theorem foldSteps_swept {done rest : List FoldStep} {blocks : List LlirBlock}
    (split : method.foldSteps = done ++ rest)
    (run : done.foldlM (foldStep n) method.blocks = .ok blocks) : method.Swept (Folded method.blocks) done blocks := by
  have same : foldStep n = passTurn (optimizeAssignment n) (optimizeTerminal n) := by
    funext blocks step
    exact foldStep_eq n blocks step
  rw [same] at run
  refine LlirMethod.swept_of_run (except_fallible FoldError) ?_ ?_ split run
  · intro done rest blocks position index block assignment assignment' split swept _ here listed optimized
    refine ⟨(optimizeAssignment_optimized optimized).destination, ?_⟩
    refine optimizeAssignment_folded cfg short split swept ?_ here listed optimized
    rwa [predecessorIds_of_edges (edges_of_skeletons swept.skeletons)]
  · intro blocks block index terminal terminal' optimized
    exact (optimizeTerminal_optimized optimized).successors

/-- The pass comes to no division without a quotient exactly if there is none of known operands. -/
private theorem foldsSafely_iff : method.FoldsSafely n ↔ method.DivisionsDefined := by
  constructor
  · intro safe block mem index type left right destination listed division dividend divisor known known' traps
    obtain ⟨method', folded⟩ := (foldMethod_spec enough).2.mpr safe
    obtain ⟨final, run, -⟩ := except_bind_eq_ok folded
    obtain ⟨position, here⟩ := List.mem_iff_getElem?.mp mem
    obtain ⟨done, rest, split⟩ := List.append_of_mem
      (LlirMethod.mem_foldSteps_assignment.mpr ⟨block, here, (List.getElem?_eq_some_iff.mp listed).1⟩)
    obtain ⟨blocks, run⟩ := (except_fallible FoldError).foldlM_done (split ▸ run)
    have swept := foldSteps_swept cfg short enough split run
    obtain ⟨new, here', skeleton⟩ := twin_at swept.skeletons here
    have there := (swept.left position block new index here here' (LlirMethod.not_mem_done split)).trans listed
    have visit : FoldStep.visit blocks (.assignment position index) = some (new, index, [left, right]) := by
      simp [FoldStep.visit, here', there, LlirAssignment.operands]
    have constant := constantAt_iff cfg short split swept visit
    rw [LlirBlock.id_of_skeleton skeleton] at constant
    exact safe done _ rest blocks split run new type left right destination here' there division dividend divisor
      ((constant _ _).mpr known) ((constant _ _).mpr known') traps
  · intro defined done step rest blocks split run
    have swept := foldSteps_swept cfg short enough split run
    cases step with
    | terminal position => trivial
    | assignment position index =>
      intro block type left right destination here listed division dividend divisor constant constant'
      have visit : FoldStep.visit blocks (.assignment position index) = some (block, index, [left, right]) := by
        simp [FoldStep.visit, here, listed, LlirAssignment.operands]
      obtain ⟨old, here', skeleton⟩ := twin_at swept.skeletons.symm here
      have there := (swept.left position old block index here' here (LlirMethod.not_mem_done split)).symm.trans listed
      rw [constantAt_iff cfg short split swept visit, ← LlirBlock.id_of_skeleton skeleton] at constant constant'
      exact defined old (List.mem_of_getElem? here') index type left right destination there division dividend divisor
        constant constant'

/-- The pass replaces the uses of known fields, by their values. -/
private theorem replaces_iff (defined : method.DivisionsDefined) {point : Nat × Nat} {field : LlirField}
    {operand : LlirOperand} :
    method.Replaces (foldStep n) (optimizeOperand n) point field operand ↔
      ∃ value, operand = .literal value ∧ method.Uses point field ∧ KnownAt method.blocks point (.field field) value := by
  constructor
  · rintro ⟨done, step, rest, blocks, block, operands, split, run, visit, id, listed, optimized, changed⟩
    have swept := foldSteps_swept cfg short enough split run
    obtain ⟨position, old, here, here', id', -, inside, length, rfl⟩ := swept.visit split visit
    have mem := List.mem_of_getElem? here'
    have enough : (predecessorIds blocks).length < n := by
      rwa [predecessorIds_of_edges (edges_of_skeletons swept.skeletons)]
    obtain ⟨-, value, rfl, -⟩ := optimizeOperand_replaced mem enough optimized changed
    obtain ⟨operand', optimized', constant⟩ := optimizeOperand_spec mem enough point.2 (.field field)
    obtain rfl := Except.ok.inj (optimized.symm.trans optimized')
    have known := (constantAt_iff cfg short split swept visit _ _).mp ((constant value).mp rfl)
    rw [id] at known
    exact ⟨value, rfl, ⟨old, List.mem_of_getElem? here, id'.trans id, length ▸ inside, listed⟩, known⟩
  · rintro ⟨value, rfl, ⟨block, mem, id, inside, listed⟩, known⟩
    obtain ⟨position, here⟩ := List.mem_iff_getElem?.mp mem
    obtain ⟨method', folded⟩ := (foldMethod_spec enough).2.mpr ((foldsSafely_iff cfg short enough).mpr defined)
    obtain ⟨final, run, -⟩ := except_bind_eq_ok folded
    obtain ⟨done, step, rest, split, turn⟩ := LlirMethod.exists_turn here inside
    obtain ⟨blocks, run⟩ := (except_fallible FoldError).foldlM_done (split ▸ run)
    have swept := foldSteps_swept cfg short enough split run
    obtain ⟨new, here', id', visit⟩ := turn swept
    have enough : (predecessorIds blocks).length < n := by
      rwa [predecessorIds_of_edges (edges_of_skeletons swept.skeletons)]
    obtain ⟨operand', optimized, constant⟩ :=
      optimizeOperand_spec (List.mem_of_getElem? here') enough point.2 (.field field)
    have place : (new.id, point.2) = point := Prod.ext (id'.trans id) rfl
    obtain rfl := (constant value).mpr ((constantAt_iff cfg short split swept visit _ _).mpr (place ▸ known))
    exact ⟨done, step, rest, blocks, new, _, split, run, visit, id'.trans id, listed, optimized, nofun⟩

end

/-- The pass ends, or it traps, and it traps exactly if the program has a division of known operands that has no quotient. What
it computes is always what the code of the operation stores. -/
theorem optimizationConstantFolding_defined_iff {program analyzed : IrProgram} (source : program.FromSource)
    (accepted : Accepts program analyzed) {lowered llir : Llir} (generated : llirGeneratorGenerateLlir analyzed = some lowered)
    (optimized : Optimized lowered llir) (short : ∀ method ∈ llir.methods, ShortBlocks method.blocks) {n : Nat}
    (enough : ∀ method ∈ llir.methods, (predecessorIds method.blocks).length < n) :
    ((∃ folded, optimizationConstantFolding n llir = .ok folded) ∨ optimizationConstantFolding n llir = .error .trap) ∧
    ((∃ folded, optimizationConstantFolding n llir = .ok folded) ↔ ∀ method ∈ llir.methods, method.DivisionsDefined) ∧
    ∀ (g : CodeGenerator) symbols (s : Processor) destination, WordAligned g symbols s (.field destination) →
      (∀ type source, WordAligned g symbols s source → CodeStores g symbols s (.unary type source destination)
        (some (unaryOperation (operandValue g symbols s source) type))) ∧
      ∀ type left right, WordAligned g symbols s left → WordAligned g symbols s right →
        CodeStores g symbols s (.binary type left right destination)
          (binaryOperation (operandValue g symbols s left) (operandValue g symbols s right) type) := by
  have regular := CopyPropagation.optimized_regular (accepts_regular source accepted generated) optimized
  have safe : (∀ method ∈ llir.methods, method.FoldsSafely n) ↔ ∀ method ∈ llir.methods, method.DivisionsDefined :=
    forall₂_congr fun method mem => foldsSafely_iff (regular.cfg method mem) (short method mem) (enough method mem)
  obtain ⟨either, ok_iff⟩ := foldMethods_spec enough
  refine ⟨?_, ?_, fun g symbols s destination stored => ⟨fun type source aligned => ?_,
    fun type left right alignedLeft alignedRight => ?_⟩⟩
  · rw [optimizationConstantFolding]
    rcases either with ⟨methods', ok⟩ | trap
    · rw [ok]
      exact .inl ⟨_, rfl⟩
    · rw [trap]
      exact .inr rfl
  · rw [← safe, ← ok_iff, optimizationConstantFolding]
    rcases either with ⟨methods', ok⟩ | trap
    · rw [ok]
      exact ⟨fun _ => ⟨_, rfl⟩, fun _ => ⟨_, rfl⟩⟩
    · rw [trap]
      refine ⟨fun ok => ?_, fun ok => ?_⟩
      all_goals
        obtain ⟨_, ok⟩ := ok
        cases ok
  · exact codeStores_unary g symbols s stored type aligned
  · exact codeStores_binary g symbols s stored type alignedLeft alignedRight

/-- `void main() { int x; x = 1 / 0; }` -/
def zeroQuotient : IrProgram where
  imports := []
  fields := []
  methods := [{
    imported := false, returnType := .void, identifier := "main", arguments := []
    block := .mk [scalar] (.cons (.assignment quotient) .nil) }]
where
  scalar : IrField :=
    { node := 0, type := .int, constant := false, identifier := "x", arrayLength := 1
      lengthToken := none, initializer := none }
  literal (value : Int) (digit : Char) : IrExpression :=
    .literal { negate := false, type := .int, value := value, token := some ⟨false, [digit]⟩ }
  quotient : IrAssignment :=
    { location := .scalar 0 "x", assignOperator := .set, expression := some (.binary .div (literal 1 '1') (literal 0 '0')) }

def zeroQuotientLlir : Llir := (generateLlir (semanticsAnalyze zeroQuotient).2).1

private theorem zeroQuotientLlir_small : (∀ method ∈ zeroQuotientLlir.methods, ShortBlocks method.blocks) ∧
    ∀ method ∈ zeroQuotientLlir.methods, (predecessorIds method.blocks).length < 9 := by
  unfold ShortBlocks
  decide +kernel

theorem zeroQuotient_traps : zeroQuotient.FromSource ∧ Accepts zeroQuotient (semanticsAnalyze zeroQuotient).2 ∧
    llirGeneratorGenerateLlir (semanticsAnalyze zeroQuotient).2 = some zeroQuotientLlir ∧
    optimizationConstantFolding 9 zeroQuotientLlir = .error .trap :=
  ⟨by decide +kernel, Prod.ext (by decide +kernel) rfl, by decide +kernel, by decide +kernel⟩

theorem optimizationConstantFolding_defined_iff_zeroQuotient :
    ¬ ∀ method ∈ zeroQuotientLlir.methods, method.DivisionsDefined := by
  obtain ⟨source, accepted, generated, traps⟩ := zeroQuotient_traps
  obtain ⟨-, defined_iff, -⟩ := optimizationConstantFolding_defined_iff source accepted generated .lowered
    zeroQuotientLlir_small.1 zeroQuotientLlir_small.2
  rw [← defined_iff, traps]
  rintro ⟨folded, impossible⟩
  cases impossible

/-- No run comes to a use of a variable that the activation has not assigned and whose value differs from the one that the
assignments on all other ways to the use give it. -/
def LlirMethod.UnassignedKnown (llir : Llir) (r : Nat → MachineState) (method : LlirMethod) : Prop :=
  ∀ n frame rest, (r n).status = .running → (r n).frames = frame :: rest → frame.method = method.identifier →
    ∀ field value, method.Uses (frame.block, frame.index) field → ((r n).cell llir frame field 0).Unassigned →
      KnownAt method.blocks (frame.block, frame.index) (.field field) value → ((r n).cell llir frame field 0).value = value

/-- The replaced operands that are unassigned hold their literals exactly if the known ones do. -/
theorem replacedHold_iff {method : LlirMethod} {n : Nat} (cfg : WellFormedCfg method.blocks) (short : ShortBlocks method.blocks)
    (enough : (predecessorIds method.blocks).length < n) (defined : method.DivisionsDefined) {llir : Llir}
    {environment : Environment} {r : Nat → MachineState} :
    method.ReplacedHold (foldStep n) (optimizeOperand n) llir environment r Cell.Unassigned ↔
      method.UnassignedKnown llir r := by
  constructor
  · intro hold i frame rest running top inside field value used unassigned known
    have replaces := (replaces_iff cfg short enough defined).mpr ⟨value, rfl, used, known⟩
    exact (hold i frame rest running top inside field _ replaces unassigned).symm
  · intro hold i frame rest running top inside field operand replaces unassigned
    obtain ⟨value, rfl, used, known⟩ := (replaces_iff cfg short enough defined).mp replaces
    exact (hold i frame rest running top inside field value used unassigned known).symm

/-- Folding replaces an operand only by the value it has and leaves every run as it is, exactly if no run comes to a use of an
unassigned parameter that differs from the constant which all assignments to it that reach the use give. -/
theorem accepts_constantFolding_preserves_iff {program analyzed : IrProgram} (source : program.FromSource)
    (accepted : Accepts program analyzed) {lowered : Llir} (generated : llirGeneratorGenerateLlir analyzed = some lowered)
    (short : ∀ method ∈ lowered.methods, ShortBlocks method.blocks) {n : Nat}
    (enough : ∀ method ∈ lowered.methods, (predecessorIds method.blocks).length < n)
    (defined : ∀ method ∈ lowered.methods, method.DivisionsDefined) :
    ∃ folded, optimizationConstantFolding n lowered = .ok folded ∧ ∀ method ∈ lowered.methods, ∃ method',
      folded.method method.identifier = some method' ∧ ∀ environment values globals,
        (run folded environment (startMethod environment method' values globals) =
            run lowered environment (startMethod environment method values globals) ∧
          ∀ other ∈ lowered.methods, other.ReplacedHold (foldStep n) (optimizeOperand n) lowered environment
            (run lowered environment (startMethod environment method values globals)) fun _ => True) ↔
        ∀ other ∈ lowered.methods, other.UnassignedKnown lowered
          (run lowered environment (startMethod environment method values globals)) := by
  have regular := accepts_regular source accepted generated
  obtain ⟨methods', folded⟩ := (foldMethods_spec enough).2.mpr fun method mem =>
    (foldsSafely_iff (regular.cfg method mem) (short method mem) (enough method mem)).mpr (defined method mem)
  refine ⟨{ lowered with methods := methods' }, ?_, fun method mem => ?_⟩
  · rw [optimizationConstantFolding, folded]
    rfl
  · obtain ⟨method', found, preserves⟩ := pass_iff (constantFolding_replaces n) regular short enough folded mem
    refine ⟨method', found, fun environment values globals => (preserves environment values globals).trans ?_⟩
    exact forall₂_congr fun other mem =>
      replacedHold_iff (regular.cfg other mem) (short other mem) (enough other mem) (defined other mem)

/-- `int f(int a) { if (a == 2) { a = 1; } return a; } void main() { f(5); }` -/
def partialConstant : IrProgram where
  imports := []
  fields := []
  methods := [
    { imported := false, returnType := .int, identifier := "f", arguments := [parameter]
      block := .mk [] (.cons (.ifStatement (.binary .equal (.location (.scalar 1 "a")) (literal 2 '2'))
          (.mk [] (.cons (.assignment ⟨.scalar 2 "a", .set, some (literal 1 '1')⟩) .nil)))
        (.cons (.returnStatement (some (.location (.scalar 3 "a")))) .nil)) },
    { imported := false, returnType := .void, identifier := "main", arguments := []
      block := .mk [] (.cons (.methodCall "f" (.expression (literal 5 '5') .nil)) .nil) }]
where
  parameter : IrField :=
    { node := 0, type := .int, constant := false, identifier := "a", arrayLength := 1, lengthToken := none
      initializer := none }
  literal (value : Word) (digit : Char) : IrExpression := .literal ⟨false, .int, value, some ⟨false, [digit]⟩⟩

def partialConstantLlir : Llir := (generateLlir (semanticsAnalyze partialConstant).2).1

def partialConstantFolded : Llir := ((optimizationConstantFolding 9 partialConstantLlir).toOption).getD ⟨[], []⟩

def partialConstantCall (llir : Llir) : Nat → MachineState :=
  run llir silentEnvironment
    (startMethod silentEnvironment ((llir.method "f").getD ⟨"", [], []⟩) [5] partialConstantLlir.initialGlobals)

private theorem partialConstant_generated : partialConstant.FromSource ∧ (semanticsAnalyze partialConstant).1 = 0 ∧
    llirGeneratorGenerateLlir (semanticsAnalyze partialConstant).2 = some partialConstantLlir ∧
    optimizationConstantFolding 9 partialConstantLlir = .ok partialConstantFolded ∧
    (partialConstantLlir.method "f").isSome ∧ (∀ method ∈ partialConstantLlir.methods, ShortBlocks method.blocks) ∧
    ∀ method ∈ partialConstantLlir.methods, (predecessorIds method.blocks).length < 9 := by
  unfold ShortBlocks
  decide +kernel

private theorem partialConstantCall_returns (n : Nat) :
    (partialConstantCall partialConstantLlir (6 + n)).status = .returned 5 ∧
    (partialConstantCall partialConstantFolded (6 + n)).status = .returned 1 := by
  constructor
  · exact run_returned (by decide +kernel) n
  · exact run_returned (by decide +kernel) n

theorem accepts_constantFolding_preserves_iff_partialConstant :
    ¬ ∀ other ∈ partialConstantLlir.methods, other.UnassignedKnown partialConstantLlir
      (partialConstantCall partialConstantLlir) := by
  obtain ⟨source, accepted, generated, folds, isSome, short, enough⟩ := partialConstant_generated
  obtain ⟨methods', mapped, -⟩ := except_bind_eq_ok folds
  have regular := accepts_regular source (Prod.ext accepted rfl) generated
  obtain ⟨folded, run, preserves⟩ := accepts_constantFolding_preserves_iff source (Prod.ext accepted rfl) generated short
    enough fun method mem => (foldsSafely_iff (regular.cfg method mem) (short method mem) (enough method mem)).mp
      ((foldMethods_spec enough).2.mp ⟨methods', mapped⟩ method mem)
  obtain rfl := Except.ok.inj (folds.symm.trans run)
  obtain ⟨f, called⟩ := Option.isSome_iff_exists.mp isSome
  have name : f.identifier = "f" := by simpa using List.find?_some called
  obtain ⟨f', called', iff⟩ := preserves f (List.mem_of_find?_eq_some called)
  rw [name] at called'
  intro hold
  rw [partialConstantCall, called, Option.getD_some] at hold
  have same := ((iff silentEnvironment [5] partialConstantLlir.initialGlobals).mpr hold).1
  have before := (partialConstantCall_returns 0).1
  have after := (partialConstantCall_returns 0).2
  rw [partialConstantCall, called, Option.getD_some, ← same] at before
  rw [partialConstantCall, called', Option.getD_some, before] at after
  cases after

/-- The call returns 5, and after the folding it returns 1. -/
theorem partialConstant_changes : partialConstant.FromSource ∧ Accepts partialConstant (semanticsAnalyze partialConstant).2 ∧
    llirGeneratorGenerateLlir (semanticsAnalyze partialConstant).2 = some partialConstantLlir ∧
    optimizationConstantFolding 9 partialConstantLlir = .ok partialConstantFolded ∧
    ∀ n, (partialConstantCall partialConstantLlir (6 + n)).status = .returned 5 ∧
      (partialConstantCall partialConstantFolded (6 + n)).status = .returned 1 :=
  ⟨partialConstant_generated.1, Prod.ext partialConstant_generated.2.1 rfl, partialConstant_generated.2.2.1,
    partialConstant_generated.2.2.2.1, partialConstantCall_returns⟩

end Roast
