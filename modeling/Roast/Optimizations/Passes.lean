import Roast.Optimizations.Replacement

/-! Passes that visit the operands of a method one by one and replace some of them: constant folding and copy propagation.
A run does not change as long as every operand that is replaced has the value of what replaces it. -/
namespace Roast
open Systems

def FoldStep.visit (blocks : List LlirBlock) : FoldStep → Option (LlirBlock × Nat × List LlirOperand)
  | .assignment position index => do
    let block ← blocks[position]?
    let assignment ← block.assignments[index]?
    return (block, index, assignment.operands)
  | .terminal position => do
    let block ← blocks[position]?
    return (block, block.assignments.length, block.terminal.operands)

private theorem FoldStep.mem_of_visit {blocks : List LlirBlock} {step : FoldStep} {block : LlirBlock} {index : Nat}
    {operands : List LlirOperand} (visit : step.visit blocks = some (block, index, operands)) : block ∈ blocks := by
  cases step with
  | assignment position place =>
    obtain ⟨visited, here, visit⟩ := Option.bind_eq_some_iff.mp visit
    obtain ⟨assignment, -, visit⟩ := Option.bind_eq_some_iff.mp visit
    cases visit
    exact List.mem_of_getElem? here
  | terminal position =>
    obtain ⟨visited, here, visit⟩ := Option.bind_eq_some_iff.mp visit
    cases visit
    exact List.mem_of_getElem? here

structure LlirBlock.ReplacedAt (old new : LlirBlock) (index : Nat) (keeps : (LlirOperand → Word) → Prop) : Prop where
  alike : old.Alike new
  same : ∀ (llir : Llir) environment (s : MachineState) (frame : Frame) rest, frame.index ≤ old.assignments.length →
    (frame.index = index → keeps (s.operand llir environment frame)) →
    stepBlock llir environment s frame rest new = stepBlock llir environment s frame rest old

structure LlirAssignment.OptimizedTo (assignment assignment' : LlirAssignment) (keeps : (LlirOperand → Word) → Prop) :
    Prop where
  destination : assignment'.destination = assignment.destination
  same : ∀ llir environment (s : MachineState) frame rest, keeps (s.operand llir environment frame) →
    stepAssignment llir environment s frame rest assignment' = stepAssignment llir environment s frame rest assignment

structure LlirTerminal.OptimizedTo (terminal terminal' : LlirTerminal) (keeps : (LlirOperand → Word) → Prop) : Prop where
  successors : terminal'.successors = terminal.successors
  same : ∀ llir environment (s : MachineState) frame rest, keeps (s.operand llir environment frame) →
    stepTerminal llir environment s frame rest terminal' = stepTerminal llir environment s frame rest terminal

section
variable {block : LlirBlock} {keeps : (LlirOperand → Word) → Prop}

/-- Another assignment at the point. -/
theorem LlirBlock.ReplacedAt.assignment {index : Nat} {assignment assignment' : LlirAssignment}
    (here : block.assignments[index]? = some assignment) (optimized : assignment.OptimizedTo assignment' keeps) :
    block.ReplacedAt { block with assignments := block.assignments.set index assignment' } index keeps := by
  refine ⟨⟨rfl, map_set_of_same LlirAssignment.destination here optimized.destination⟩, ?_⟩
  intro llir environment s frame rest _ kept
  rw [stepBlock, stepBlock]
  dsimp only
  by_cases reached : frame.index = index
  · rw [reached, List.getElem?_set_self (List.getElem?_eq_some_iff.mp here).1, here]
    exact optimized.same llir environment s frame rest (kept reached)
  · rw [List.getElem?_set_ne (Ne.symm reached)]

/-- Another terminal at the point behind the assignments. -/
theorem LlirBlock.ReplacedAt.terminal {terminal' : LlirTerminal} (optimized : block.terminal.OptimizedTo terminal' keeps) :
    block.ReplacedAt { block with terminal := terminal' } block.assignments.length keeps := by
  refine ⟨⟨?_, rfl⟩, ?_⟩
  · rw [LlirBlock.edges, LlirBlock.edges, optimized.successors]
  · intro llir environment s frame rest within kept
    rw [stepBlock, stepBlock]
    dsimp only
    cases next : block.assignments[frame.index]? with
    | some assignment => rfl
    | none =>
      exact optimized.same llir environment s frame rest (kept (within.antisymm (List.getElem?_eq_none_iff.mp next)))

end

section
variable {m : Type → Type} [Monad m]

def LlirAssignment.mapOperands (optimize : LlirOperand → m LlirOperand) : LlirAssignment → m LlirAssignment
  | .unary type source destination => do
    let source ← optimize source
    return .unary type source destination
  | .binary type left right destination => do
    let left ← optimize left
    let right ← optimize right
    return .binary type left right destination
  | .arrayUpdate index value destination => do
    let index ← optimize index
    let value ← optimize value
    return .arrayUpdate index value destination
  | .arrayAccess index array destination guarded => do
    let index ← optimize index
    return .arrayAccess index array destination guarded
  | .methodCall method arguments destination => do
    let arguments ← arguments.mapM optimize
    return .methodCall method arguments destination

def LlirTerminal.mapOperands (optimize : LlirOperand → m LlirOperand) : LlirTerminal → m LlirTerminal
  | .branch terminal => do
    let left ← optimize terminal.left
    let right ← optimize terminal.right
    return .branch { terminal with left := left, right := right }
  | .llirReturn source => do
    let source ← optimize source
    return .llirReturn source
  | terminal => pure terminal

def OperandsKept (optimize : LlirOperand → m LlirOperand) (operands : List LlirOperand) (value : LlirOperand → Word) : Prop :=
  ∀ operand ∈ operands, ∀ operand', optimize operand = pure operand' → value operand' = value operand

variable [LawfulMonad m] (fallible : Fallible m) {optimize : LlirOperand → m LlirOperand}
include fallible

/-- An assignment with its operands replaced. -/
theorem LlirAssignment.mapOperands_optimized {assignment assignment' : LlirAssignment}
    (optimized : assignment.mapOperands optimize = pure assignment') :
    assignment.OptimizedTo assignment' (OperandsKept optimize assignment.operands) := by
  cases assignment with
  | unary type source destination =>
    obtain ⟨source', found, optimized⟩ := fallible.bind optimized
    obtain rfl := fallible.pure optimized
    refine ⟨rfl, fun llir environment s frame rest keep => ?_⟩
    rw [stepAssignment, stepAssignment, keep source List.mem_cons_self source' found]
  | binary type left right destination =>
    obtain ⟨left', found, optimized⟩ := fallible.bind optimized
    obtain ⟨right', found', optimized⟩ := fallible.bind optimized
    obtain rfl := fallible.pure optimized
    refine ⟨rfl, fun llir environment s frame rest keep => ?_⟩
    rw [stepAssignment, stepAssignment, keep left List.mem_cons_self left' found,
      keep right (List.mem_cons_of_mem _ List.mem_cons_self) right' found']
  | arrayUpdate index value destination =>
    obtain ⟨index', found, optimized⟩ := fallible.bind optimized
    obtain ⟨value', found', optimized⟩ := fallible.bind optimized
    obtain rfl := fallible.pure optimized
    refine ⟨rfl, fun llir environment s frame rest keep => ?_⟩
    rw [stepAssignment, stepAssignment, keep index List.mem_cons_self index' found,
      keep value (List.mem_cons_of_mem _ List.mem_cons_self) value' found']
  | arrayAccess index array destination guarded =>
    obtain ⟨index', found, optimized⟩ := fallible.bind optimized
    obtain rfl := fallible.pure optimized
    refine ⟨rfl, fun llir environment s frame rest keep => ?_⟩
    rw [stepAssignment, stepAssignment, keep index List.mem_cons_self index' found]
  | methodCall method arguments destination =>
    obtain ⟨arguments', found, optimized⟩ := fallible.bind optimized
    obtain rfl := fallible.pure optimized
    refine ⟨rfl, fun llir environment s frame rest keep => ?_⟩
    have same : arguments'.map (s.operand llir environment frame) = arguments.map (s.operand llir environment frame) :=
      fallible.mapM_map keep found
    rw [stepAssignment, stepAssignment, same]

omit [LawfulMonad m] in
/-- A terminal with its operand replaced. -/
theorem LlirTerminal.mapOperands_optimized {terminal terminal' : LlirTerminal}
    (optimized : terminal.mapOperands optimize = pure terminal') :
    terminal.OptimizedTo terminal' (OperandsKept optimize terminal.operands) := by
  cases terminal with
  | branch branch =>
    obtain ⟨left', found, optimized⟩ := fallible.bind optimized
    obtain ⟨right', found', optimized⟩ := fallible.bind optimized
    obtain rfl := fallible.pure optimized
    refine ⟨rfl, fun llir environment s frame rest keep => ?_⟩
    rw [stepTerminal, stepTerminal, keep branch.left List.mem_cons_self left' found,
      keep branch.right (List.mem_cons_of_mem _ List.mem_cons_self) right' found']
  | llirReturn source =>
    obtain ⟨source', found, optimized⟩ := fallible.bind optimized
    obtain rfl := fallible.pure optimized
    refine ⟨rfl, fun llir environment s frame rest keep => ?_⟩
    rw [stepTerminal, stepTerminal, keep source List.mem_cons_self source' found]
  | unknown | jump | shitYourself => exact fallible.pure optimized ▸ ⟨rfl, fun _ _ _ _ _ _ => rfl⟩

end

section
variable {m : Type → Type} [Monad m] (turn : List LlirBlock → FoldStep → m (List LlirBlock))
  (optimize : List LlirBlock → LlirBlock → Nat → LlirOperand → m LlirOperand)

def passMethod (method : LlirMethod) : m LlirMethod := do
  let blocks ← method.foldSteps.foldlM turn method.blocks
  return { method with blocks := blocks }

def ReplacedKeep (blocks : List LlirBlock) (block : LlirBlock) (index : Nat) (operands : List LlirOperand)
    (value : LlirOperand → Word) : Prop :=
  ∀ field operand, .field field ∈ operands → optimize blocks block index (.field field) = pure operand →
    operand ≠ .field field → value operand = value (.field field)

/-- At a point of the method the pass comes to the field and replaces it by the operand. -/
def LlirMethod.Replaces (method : LlirMethod) (point : Nat × Nat) (field : LlirField) (operand : LlirOperand) : Prop :=
  ∃ done step rest blocks block operands, method.foldSteps = done ++ step :: rest ∧
    done.foldlM turn method.blocks = pure blocks ∧ step.visit blocks = some (block, point.2, operands) ∧
    block.id = point.1 ∧ .field field ∈ operands ∧ optimize blocks block point.2 (.field field) = pure operand ∧
    operand ≠ .field field

/-- Wherever a run comes to a replaced field whose cell is relevant, the field has the value of what replaces it. -/
def LlirMethod.ReplacedHold (llir : Llir) (environment : Environment) (r : Nat → MachineState) (relevant : Cell → Prop)
    (method : LlirMethod) : Prop :=
  ∀ n frame rest, (r n).status = .running → (r n).frames = frame :: rest → frame.method = method.identifier →
    ∀ field operand, method.Replaces turn optimize (frame.block, frame.index) field operand →
      relevant ((r n).cell llir frame field 0) →
      (r n).operand llir environment frame operand = (r n).operand llir environment frame (.field field)

/-- A pass that replaces operands in one block in each turn, a field only by what the last assignment to it has told. -/
structure ReplacesOperands (n : Nat) : Prop where
  fallible : Fallible m
  turns : ∀ blocks step blocks', turn blocks step = pure blocks' → blocks' = blocks ∨
    ∃ position old new index operands, blocks[position]? = some old ∧ step.visit blocks = some (old, index, operands) ∧
      blocks' = blocks.set position new ∧ old.ReplacedAt new index (ReplacedKeep optimize blocks old index operands)
  told : ∀ (llir : Llir) environment (s : MachineState) (frame : Frame) blocks block field operand,
    (∀ field : LlirField, llirOperandIsFieldGlobal field = false → ¬ llir.IsGlobal field.identifier) →
    WellFormedCfg blocks → ShortBlocks blocks → (predecessorIds blocks).length < n → block ∈ blocks → frame.index ≤ block.assignments.length →
    optimize blocks block frame.index (.field field) = pure operand → operand ≠ .field field →
    (¬ llir.IsGlobal field.identifier → History llir blocks frame.locals field.identifier (block.id, frame.index)) →
    ¬ (s.cell llir frame field 0).Unassigned →
    s.operand llir environment frame operand = s.operand llir environment frame (.field field)

end

section
variable {m : Type → Type} [Monad m] (optimizeAssignment : List LlirBlock → LlirBlock → Nat → LlirAssignment → m LlirAssignment)
  (optimizeTerminal : List LlirBlock → LlirBlock → Nat → LlirTerminal → m LlirTerminal)

def passTurn (blocks : List LlirBlock) : FoldStep → m (List LlirBlock)
  | .assignment position index =>
    match blocks[position]? with
    | none => pure blocks
    | some block =>
      match block.assignments[index]? with
      | none => pure blocks
      | some assignment => do
        let assignment ← optimizeAssignment blocks block index assignment
        return blocks.set position { block with assignments := block.assignments.set index assignment }
  | .terminal position =>
    match blocks[position]? with
    | none => pure blocks
    | some block => do
      let terminal ← optimizeTerminal blocks block block.assignments.length block.terminal
      return blocks.set position { block with terminal := terminal }

variable {optimizeAssignment optimizeTerminal} (fallible : Fallible m)
  {optimize : List LlirBlock → LlirBlock → Nat → LlirOperand → m LlirOperand}
include fallible

/-- The operands keep their values if the fields that are replaced do. -/
private theorem ReplacedKeep.operandsKept {blocks : List LlirBlock} {block : LlirBlock} {index : Nat}
    {operands : List LlirOperand}
    {value : LlirOperand → Word} (keep : ReplacedKeep optimize blocks block index operands value)
    (literals : ∀ literal, optimize blocks block index (.literal literal) = pure (.literal literal))
    (strings : ∀ string, optimize blocks block index (.string string) = pure (.string string)) :
    OperandsKept (optimize blocks block index) operands value := by
  intro operand listed operand' optimized
  cases operand with
  | field field =>
    by_cases changed : operand' = .field field
    · rw [changed]
    · exact keep field operand' listed optimized changed
  | literal literal => exact fallible.pure ((literals literal).symm.trans optimized) ▸ rfl
  | string string => exact fallible.pure ((strings string).symm.trans optimized) ▸ rfl

/-- A turn replaces one block. -/
theorem passTurn_cases {blocks blocks' : List LlirBlock} {step : FoldStep}
    (literals : ∀ block index literal, optimize blocks block index (.literal literal) = pure (.literal literal))
    (strings : ∀ block index string, optimize blocks block index (.string string) = pure (.string string))
    (assignments : ∀ block index assignment assignment', optimizeAssignment blocks block index assignment = pure assignment' →
      assignment.OptimizedTo assignment' (OperandsKept (optimize blocks block index) assignment.operands))
    (terminals : ∀ block index terminal terminal', optimizeTerminal blocks block index terminal = pure terminal' →
      terminal.OptimizedTo terminal' (OperandsKept (optimize blocks block index) terminal.operands))
    (turned : passTurn optimizeAssignment optimizeTerminal blocks step = pure blocks') : blocks' = blocks ∨
      ∃ position old new index operands, blocks[position]? = some old ∧ step.visit blocks = some (old, index, operands) ∧
        blocks' = blocks.set position new ∧ old.ReplacedAt new index (ReplacedKeep optimize blocks old index operands) := by
  have kept {block : LlirBlock} {index : Nat} {operands : List LlirOperand} {value : LlirOperand → Word}
      (keep : ReplacedKeep optimize blocks block index operands value) :=
    keep.operandsKept fallible (literals block index) (strings block index)
  cases step with
  | assignment position index =>
    rw [passTurn] at turned
    cases here : blocks[position]? with
    | none =>
      rw [here] at turned
      exact .inl (fallible.pure turned).symm
    | some block =>
      rw [here] at turned
      dsimp only at turned
      cases listed : block.assignments[index]? with
      | none =>
        rw [listed] at turned
        exact .inl (fallible.pure turned).symm
      | some assignment =>
        rw [listed] at turned
        obtain ⟨assignment', optimized, turned⟩ := fallible.bind turned
        obtain ⟨destination, same⟩ := assignments block index assignment assignment' optimized
        refine .inr ⟨position, block, _, index, assignment.operands, here, ?_, (fallible.pure turned).symm, ?_⟩
        · simp [FoldStep.visit, here, listed]
        · exact .assignment listed ⟨destination, fun llir environment s frame rest keep =>
            same llir environment s frame rest (kept keep)⟩
  | terminal position =>
    rw [passTurn] at turned
    cases here : blocks[position]? with
    | none =>
      rw [here] at turned
      exact .inl (fallible.pure turned).symm
    | some block =>
      rw [here] at turned
      obtain ⟨terminal', optimized, turned⟩ := fallible.bind turned
      obtain ⟨successors, same⟩ := terminals block _ block.terminal terminal' optimized
      refine .inr ⟨position, block, _, block.assignments.length, block.terminal.operands, here, ?_,
        (fallible.pure turned).symm, ?_⟩
      · simp [FoldStep.visit, here]
      · exact .terminal ⟨successors, fun llir environment s frame rest keep =>
          same llir environment s frame rest (kept keep)⟩

end

def Llir.withBlocks (llir : Llir) (before after : List LlirMethod) (method : LlirMethod) (blocks : List LlirBlock) : Llir :=
  { llir with methods := before ++ { method with blocks := blocks } :: after }

section
variable {llir : Llir} {before after : List LlirMethod} {method : LlirMethod}
  (distinct : ((before ++ method :: after).map LlirMethod.identifier).Nodup)
include distinct

private theorem withBlocks_method_self (llir : Llir) (blocks : List LlirBlock) :
    (llir.withBlocks before after method blocks).method method.identifier = some { method with blocks := blocks } := by
  have names : ((llir.withBlocks before after method blocks).methods.map LlirMethod.identifier).Nodup := by
    rw [List.map_append, List.map_cons] at distinct
    rw [Llir.withBlocks, List.map_append, List.map_cons]
    exact distinct
  have mem : { method with blocks := blocks } ∈ (llir.withBlocks before after method blocks).methods :=
    List.mem_append_right before List.mem_cons_self
  exact Llir.method_of_mem names mem

omit distinct in
private theorem withBlocks_method_other {name : String} (other : name ≠ method.identifier)
    (blocks blocks' : List LlirBlock) :
    (llir.withBlocks before after method blocks).method name = (llir.withBlocks before after method blocks').method name := by
  rw [Llir.method, Llir.method, Llir.withBlocks, Llir.withBlocks, List.find?_append, List.find?_append, List.find?_cons,
    List.find?_cons, beq_eq_false_iff_ne.mpr other.symm]

private theorem withBlocks_replaced {blocks : List LlirBlock} (cfg : WellFormedCfg blocks) {position : Nat}
    {old new : LlirBlock}
    (here : blocks[position]? = some old) (alike : old.Alike new) :
    (llir.withBlocks before after method blocks).Replaced
      (llir.withBlocks before after method (blocks.set position new)) { method with blocks := blocks } position old new where
  fields := rfl
  distinct := cfg.distinct
  here := here
  before := withBlocks_method_self distinct llir blocks
  after := withBlocks_method_self distinct llir (blocks.set position new)
  others _ other := withBlocks_method_other other (blocks.set position new) blocks
  alike := alike

end

/-- A graph is well formed by its edges. -/
theorem WellFormedCfg.of_edges {blocks blocks' : List LlirBlock}
    (same : blocks'.map LlirBlock.edges = blocks.map LlirBlock.edges) (cfg : WellFormedCfg blocks) : WellFormedCfg blocks' := by
  have ids : blocks'.map LlirBlock.id = blocks.map LlirBlock.id := by
    have heads := congrArg (List.map Prod.fst) same
    rwa [List.map_map, List.map_map] at heads
  have twin {blocks blocks' : List LlirBlock} (same : blocks'.map LlirBlock.edges = blocks.map LlirBlock.edges)
      {block : LlirBlock} (mem : block ∈ blocks') : ∃ other ∈ blocks, other.edges = block.edges :=
    List.mem_map.mp (same ▸ List.mem_map_of_mem mem)
  refine ⟨ids ▸ cfg.distinct, fun block mem id => ?_⟩
  obtain ⟨other, mem', edges⟩ := twin same mem
  obtain ⟨id', edges⟩ := Prod.mk.inj edges
  obtain ⟨predecessors, -⟩ := Prod.mk.inj edges
  rw [← predecessors, ← id', cfg.predecessors other mem' id]
  have copy {blocks blocks' : List LlirBlock} (same : blocks'.map LlirBlock.edges = blocks.map LlirBlock.edges) :
      (∃ source ∈ blocks', source.id = id ∧ other.id ∈ source.terminal.successors) →
        ∃ source ∈ blocks, source.id = id ∧ other.id ∈ source.terminal.successors := by
    rintro ⟨source, listed, leads⟩
    obtain ⟨source', listed', edges⟩ := twin same listed
    obtain ⟨id', edges⟩ := Prod.mk.inj edges
    obtain ⟨-, successors⟩ := Prod.mk.inj edges
    rw [← id', ← successors] at leads
    exact ⟨source', listed', leads⟩
  exact ⟨copy same.symm, copy same⟩

/-- What two lists of blocks with the same skeletons share. -/
theorem twin_of_skeletons {blocks blocks' : List LlirBlock}
    (same : blocks'.map LlirBlock.skeleton = blocks.map LlirBlock.skeleton) {block : LlirBlock} (mem : block ∈ blocks') :
    ∃ other ∈ blocks, other.skeleton = block.skeleton :=
  List.mem_map.mp (same ▸ List.mem_map_of_mem mem)

theorem edges_of_skeletons {blocks blocks' : List LlirBlock}
    (same : blocks'.map LlirBlock.skeleton = blocks.map LlirBlock.skeleton) :
    blocks'.map LlirBlock.edges = blocks.map LlirBlock.edges := by
  have heads := congrArg (List.map Prod.fst) same
  rwa [List.map_map, List.map_map] at heads

theorem LlirBlock.length_of_skeleton {block other : LlirBlock} (same : other.skeleton = block.skeleton) :
    other.assignments.length = block.assignments.length := by
  simpa [LlirBlock.skeleton] using congrArg (fun skeleton => skeleton.2.length) same

theorem ShortBlocks.of_skeletons {blocks blocks' : List LlirBlock}
    (same : blocks'.map LlirBlock.skeleton = blocks.map LlirBlock.skeleton) (short : ShortBlocks blocks) :
    ShortBlocks blocks' := by
  intro block mem
  obtain ⟨other, listed, alike⟩ := twin_of_skeletons same mem
  rw [← LlirBlock.length_of_skeleton alike]
  exact short other listed

theorem predecessorIds_of_edges {blocks blocks' : List LlirBlock}
    (same : blocks'.map LlirBlock.edges = blocks.map LlirBlock.edges) : predecessorIds blocks' = predecessorIds blocks := by
  have lists := congrArg (List.map fun edges => edges.2.1) same
  rw [List.map_map, List.map_map] at lists
  rw [predecessorIds, predecessorIds, List.flatMap_def, List.flatMap_def]
  exact congrArg List.flatten lists

section
variable {m : Type → Type} [Monad m] [LawfulMonad m] {turn : List LlirBlock → FoldStep → m (List LlirBlock)}
  {optimize : List LlirBlock → LlirBlock → Nat → LlirOperand → m LlirOperand} {bound : Nat}
  (pass : ReplacesOperands turn optimize bound) {llir : Llir} {before after : List LlirMethod} {method : LlirMethod}
  (distinct : ((before ++ method :: after).map LlirMethod.identifier).Nodup)
  (locals : ∀ field : LlirField, llirOperandIsFieldGlobal field = false → ¬ llir.IsGlobal field.identifier)
  (cfg : WellFormedCfg method.blocks) (short : ShortBlocks method.blocks)
  (enough : (predecessorIds method.blocks).length < bound) {environment : Environment} {start : MachineState} (remembers : ∀ llir, start.Remembers llir) {r : Nat → MachineState}

section
include pass distinct locals remembers

omit [LawfulMonad m] in
/-- At a point that a turn visits, the replaced operands have the values of what replaces them. -/
private theorem replacedKeep_of_hold (hold : method.ReplacedHold turn optimize llir environment r Cell.Unassigned)
    {done rest : List FoldStep} {step : FoldStep} {blocks : List LlirBlock} (split : method.foldSteps = done ++ step :: rest)
    (run_done : done.foldlM turn method.blocks = pure blocks) (cfg : WellFormedCfg blocks) (short : ShortBlocks blocks)
    (enough : (predecessorIds blocks).length < bound)
    (same : run (llir.withBlocks before after method blocks) environment start = r) {block : LlirBlock} (mem : block ∈ blocks)
    {operands : List LlirOperand} {n : Nat} {frame : Frame} {frames : List Frame} (running : (r n).status = .running)
    (top : (r n).frames = frame :: frames) (inside : frame.method = method.identifier) (here : frame.block = block.id)
    (visit : step.visit blocks = some (block, frame.index, operands)) :
    ReplacedKeep optimize blocks block frame.index operands ((r n).operand llir environment frame) := by
  intro field operand listed optimized changed
  have remembered : (r n).Remembers (llir.withBlocks before after method blocks) :=
    same ▸ run_remembers (remembers _) n
  have frameRemembers := remembered.frames frame (top ▸ List.mem_cons_self)
  have found := withBlocks_method_self distinct llir blocks
  rw [← inside] at found
  by_cases unassigned : ((r n).cell llir frame field 0).Unassigned
  · refine hold n frame frames running top inside field operand ?_ unassigned
    exact ⟨done, step, rest, blocks, block, operands, split, run_done, visit, here.symm, listed, optimized, changed⟩
  · have within : frame.index ≤ block.assignments.length := by
      apply frameRemembers.within
      rw [Frame.code, found, Option.bind_some, here]
      exact cfg.blockOf_eq mem
    refine pass.told (llir.withBlocks before after method blocks) environment (r n) frame blocks block field operand locals cfg
      short enough mem within optimized changed (fun isLocal => ?_) unassigned
    rw [← here]
    exact frameRemembers.history _ found field.identifier isLocal

end

include pass

omit [LawfulMonad m] in
theorem ReplacesOperands.skeletons {blocks blocks' : List LlirBlock} {step : FoldStep}
    (turned : turn blocks step = pure blocks') : blocks'.map LlirBlock.skeleton = blocks.map LlirBlock.skeleton := by
  obtain rfl | ⟨position, old, new, index, operands, here, -, rfl, replaced⟩ := pass.turns blocks step blocks' turned
  · rfl
  · exact map_set_of_same LlirBlock.skeleton here replaced.alike.skeleton

private theorem turns_skeletons {done rest : List FoldStep} {blocks : List LlirBlock}
    (split : method.foldSteps = done ++ rest)
    (run_done : done.foldlM turn method.blocks = pure blocks) :
    blocks.map LlirBlock.skeleton = method.blocks.map LlirBlock.skeleton := by
  refine pass.fallible.foldlM_prefix (fun _ blocks => blocks.map LlirBlock.skeleton = method.blocks.map LlirBlock.skeleton)
    rfl ?_ split run_done
  exact fun _ _ _ _ _ _ _ skeletons turned => (pass.skeletons turned).trans skeletons

variable (same : run (llir.withBlocks before after method method.blocks) environment start = r)
include distinct locals cfg short enough remembers same

/-- By induction on the turns: each of them leaves the run as it is. -/
private theorem turns_run (hold : method.ReplacedHold turn optimize llir environment r Cell.Unassigned)
    {done rest : List FoldStep}
    {blocks : List LlirBlock} (split : method.foldSteps = done ++ rest) (run_done : done.foldlM turn method.blocks = pure blocks) :
    run (llir.withBlocks before after method blocks) environment start = r := by
  refine pass.fallible.foldlM_prefix
    (fun _ blocks => run (llir.withBlocks before after method blocks) environment start = r) same ?_ split run_done
  intro done step rest blocks blocks' split run_done same turned
  have skeletons := turns_skeletons pass split run_done
  have edges := edges_of_skeletons skeletons
  have cfg := cfg.of_edges edges
  obtain rfl | ⟨position, old, new, index, operands, here, visit, rfl, replaced⟩ := pass.turns blocks step blocks' turned
  · exact same
  rw [(withBlocks_replaced distinct cfg here replaced.alike).run_eq, same]
  intro n frame frames running top inside block
  have mem := List.mem_of_getElem? here
  have remembered := (@run_remembers _ environment _ (remembers (llir.withBlocks before after method blocks)) n).frames
    frame (top ▸ List.mem_cons_self)
  refine replaced.same _ environment _ frame frames ?_ fun reached => ?_
  · apply remembered.within
    have found := withBlocks_method_self distinct llir blocks
    rw [Frame.code, inside, found, Option.bind_some, block]
    exact cfg.blockOf_eq mem
  · subst reached
    rw [same] at running top ⊢
    have kept := replacedKeep_of_hold pass distinct locals remembers hold split run_done cfg (short.of_skeletons skeletons)
      (by rwa [predecessorIds_of_edges edges]) same mem running top inside block visit
    exact kept

/-- So every replaced operand has the value of what replaces it. -/
private theorem replacedHold_of_unassigned
    (hold : method.ReplacedHold turn optimize llir environment r Cell.Unassigned) :
    method.ReplacedHold turn optimize llir environment r fun _ => True := by
  intro n frame frames running top inside field operand
    ⟨done, step, rest, blocks, block, operands, split, run_done, visit, id, listed, optimized, changed⟩ _
  have skeletons := turns_skeletons pass split run_done
  have edges := edges_of_skeletons skeletons
  have same := turns_run pass distinct locals cfg short enough remembers same hold split run_done
  have kept := replacedKeep_of_hold pass distinct locals remembers hold split run_done (cfg.of_edges edges)
    (short.of_skeletons skeletons) (by rwa [predecessorIds_of_edges edges]) same (step.mem_of_visit visit) running top inside id.symm visit
  exact kept field operand listed optimized changed

end

section
variable {m : Type → Type} [Monad m] [LawfulMonad m] {turn : List LlirBlock → FoldStep → m (List LlirBlock)}
  {optimize : List LlirBlock → LlirBlock → Nat → LlirOperand → m LlirOperand} {bound : Nat}
  (pass : ReplacesOperands turn optimize bound) {llir : Llir} {environment : Environment} {start : MachineState}
  {r : Nat → MachineState}

include pass

/-- By induction on the methods that are left. -/
private theorem passMethods_run (locals : ∀ field : LlirField, llirOperandIsFieldGlobal field = false → ¬ llir.IsGlobal field.identifier)
    (remembers : ∀ llir, start.Remembers llir) {before after after' : List LlirMethod}
    (distinct : ((before ++ after).map LlirMethod.identifier).Nodup)
    (cfg : ∀ method ∈ after, WellFormedCfg method.blocks) (short : ∀ method ∈ after, ShortBlocks method.blocks)
    (enough : ∀ method ∈ after, (predecessorIds method.blocks).length < bound)
    (hold : ∀ method ∈ after, method.ReplacedHold turn optimize llir environment r Cell.Unassigned)
    (same : run { llir with methods := before ++ after } environment start = r)
    (passed : after.mapM (passMethod turn) = pure after') :
    run { llir with methods := before ++ after' } environment start = r ∧
      ∀ method ∈ after, method.ReplacedHold turn optimize llir environment r fun _ => True := by
  induction after generalizing before after' with
  | nil =>
    obtain rfl := pass.fallible.pure passed
    exact ⟨same, List.forall_mem_nil _⟩
  | cons method after ih =>
    obtain ⟨method', after', here, later, rfl⟩ := pass.fallible.mapM_cons passed
    obtain ⟨blocks, turned, here⟩ := pass.fallible.bind here
    obtain rfl := pass.fallible.pure here
    obtain ⟨cfg_here, cfg⟩ := List.forall_mem_cons.mp cfg
    obtain ⟨short_here, short⟩ := List.forall_mem_cons.mp short
    obtain ⟨enough_here, enough⟩ := List.forall_mem_cons.mp enough
    obtain ⟨hold_here, hold⟩ := List.forall_mem_cons.mp hold
    have done := turns_run pass distinct locals cfg_here short_here enough_here remembers same hold_here
      (List.append_nil _).symm turned
    have names : ((before ++ [{ method with blocks := blocks }]) ++ after).map LlirMethod.identifier =
        (before ++ method :: after).map LlirMethod.identifier := by simp
    obtain ⟨final, others⟩ := ih (names ▸ distinct) cfg short enough hold (by rw [List.append_assoc]; exact done) later
    refine ⟨by rwa [List.append_assoc] at final, List.forall_mem_cons.mpr ⟨?_, others⟩⟩
    exact replacedHold_of_unassigned pass distinct locals cfg_here short_here enough_here remembers same hold_here

private theorem passMethod_edges {method method' : LlirMethod} (passed : passMethod turn method = pure method') :
    method'.blocks.map LlirBlock.edges = method.blocks.map LlirBlock.edges := by
  obtain ⟨blocks, turned, passed⟩ := pass.fallible.bind passed
  obtain rfl := pass.fallible.pure passed
  exact edges_of_skeletons (turns_skeletons pass (List.append_nil method.foldSteps).symm turned)

/-- The pass keeps what a caller sees of a method. -/
private theorem passMethod_signature {method method' : LlirMethod} (passed : passMethod turn method = pure method') :
    method'.signature = method.signature := by
  have edges := passMethod_edges pass passed
  obtain ⟨blocks, -, passed⟩ := pass.fallible.bind passed
  obtain rfl := pass.fallible.pure passed
  have heads := congrArg (fun edges => edges.head?.map Prod.fst) edges
  simp only [List.head?_map, Option.map_map] at heads
  exact congrArg (fun entry => (method.identifier, method.arguments, entry)) heads

omit pass in
private theorem startMethod_of_signature {method method' : LlirMethod} (same : method'.signature = method.signature)
    (environment : Environment) (values : List Word) (globals : Store) :
    startMethod environment method' values globals = startMethod environment method values globals := by
  obtain ⟨identifier, same⟩ := Prod.mk.inj same
  obtain ⟨arguments, entry⟩ := Prod.mk.inj same
  rw [startMethod, startMethod, enterMethod, enterMethod, identifier, arguments, entry]

structure Llir.Regular (llir : Llir) : Prop where
  locals : ∀ field : LlirField, llirOperandIsFieldGlobal field = false → ¬ llir.IsGlobal field.identifier
  distinct : (llir.methods.map LlirMethod.identifier).Nodup
  cfg : ∀ method ∈ llir.methods, WellFormedCfg method.blocks

/-- The pass keeps it. -/
theorem Llir.Regular.after (regular : llir.Regular) {methods' : List LlirMethod}
    (passed : llir.methods.mapM (passMethod turn) = pure methods') : Llir.Regular { llir with methods := methods' } where
  locals := regular.locals
  distinct := by
    have names : methods'.map LlirMethod.identifier = llir.methods.map LlirMethod.identifier :=
      pass.fallible.mapM_map (fun _ _ _ here => congrArg Prod.fst (passMethod_signature pass here)) passed
    exact names ▸ regular.distinct
  cfg := by
    have graphs : methods'.map (fun method => method.blocks.map LlirBlock.edges) =
        llir.methods.map fun method => method.blocks.map LlirBlock.edges :=
      pass.fallible.mapM_map (fun _ _ _ here => passMethod_edges pass here) passed
    intro method' mem'
    obtain ⟨method, mem, same⟩ := List.mem_map.mp (graphs ▸ List.mem_map_of_mem mem')
    exact (regular.cfg method mem).of_edges same.symm

/-- Such a pass leaves a run as it is and replaces only by equal values exactly if it does so for the variables that the
activation has not assigned. -/
theorem pass_iff (regular : llir.Regular) (short : ∀ method ∈ llir.methods, ShortBlocks method.blocks)
    (enough : ∀ method ∈ llir.methods, (predecessorIds method.blocks).length < bound) {methods' : List LlirMethod}
    (passed : llir.methods.mapM (passMethod turn) = pure methods') {method : LlirMethod} (mem : method ∈ llir.methods) :
    ∃ method', Llir.method { llir with methods := methods' } method.identifier = some method' ∧
      ∀ environment values globals,
        (run { llir with methods := methods' } environment (startMethod environment method' values globals) =
            run llir environment (startMethod environment method values globals) ∧
          ∀ other ∈ llir.methods, other.ReplacedHold turn optimize llir environment
            (run llir environment (startMethod environment method values globals)) fun _ => True) ↔
        ∀ other ∈ llir.methods, other.ReplacedHold turn optimize llir environment
          (run llir environment (startMethod environment method values globals)) Cell.Unassigned := by
  obtain ⟨method', mem', here⟩ := pass.fallible.mapM_mem passed mem
  have signature := passMethod_signature pass here
  have identifier : method'.identifier = method.identifier := congrArg Prod.fst signature
  refine ⟨method', ?_, fun environment values globals => ⟨fun h other mem n frame rest running top inside field operand at_ _ => ?_,
    fun hold => ?_⟩⟩
  · rw [← identifier]
    exact Llir.method_of_mem (regular.after pass passed).distinct mem'
  · exact h.2 other mem n frame rest running top inside field operand at_ trivial
  · rw [startMethod_of_signature signature]
    exact @passMethods_run _ _ _ _ _ _ pass _ _ _ _ regular.locals
      (fun llir => startMethod_remembers llir environment method values globals) [] _ _ regular.distinct regular.cfg short enough
      hold rfl passed

end

/-- Lowered programs are regular. -/
theorem accepts_regular {program analyzed : IrProgram} (source : program.FromSource) (accepted : Accepts program analyzed)
    {lowered : Llir} (generated : llirGeneratorGenerateLlir analyzed = some lowered) : lowered.Regular := by
  have ready := accepts_ready source accepted
  refine ⟨fun field isLocal => ?_, ready.methods_distinct generated, fun method mem => ?_⟩
  · refine (ready.lowered generated).named.not_isGlobal fun name => ?_
    rw [llirOperandIsFieldGlobal, List.all_eq_false] at isLocal
    obtain ⟨character, mem, special⟩ := isLocal
    have plain := name.2.2 character mem
    by_cases dollar : character = '$'
    · subst dollar
      exact absurd plain (by decide)
    · by_cases place : character = '@'
      · subst place
        exact absurd plain (by decide)
      · simp [dollar, place] at special
  · obtain ⟨rfl, -⟩ := llirGeneratorGenerateLlir_eq generated
    exact ready.wellFormed.cfg mem

end Roast
