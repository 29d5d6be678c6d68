import Roast.Assembly.CodeRelation

/-! The emitted code follows the machine through assignments and terminals. -/
namespace Roast
open Processor Systems

section
variable {g : CodeGenerator} (loaded : Loaded g.llir.fields) (before : LlirMethod → Offsets) (lines : List AssemblyLine)
  (outside : Word) (limit : Nat) (environment : Environment)

structure Prepared : Prop where
  compilable : g.llir.Compilable
  emits : g.Emits before lines
  links : g.Links lines loaded.behind outside
  exits : g.llir.ExitsWithStatus
  strings : loaded.StringsAt environment
  serves : loaded.host.Serves environment.imported
  small : limit ≤ loaded.top

variable {loaded before lines outside limit environment} {state : MachineState} {c c' : CodeState} {frame : Frame}
  {rest : List Frame} {method : LlirMethod} {block : LlirBlock}

theorem Llir.method_mem {llir : Llir} {name : String} {method : LlirMethod} (found : llir.method name = some method) :
    method ∈ llir.methods ∧ method.identifier = name :=
  ⟨List.mem_of_find?_eq_some found, by simpa using List.find?_some found⟩

theorem LlirMethod.block_mem {method : LlirMethod} {id : Nat} {block : LlirBlock} (found : method.block id = some block) :
    block ∈ method.blocks ∧ block.id = id :=
  ⟨List.mem_of_find?_eq_some found, by simpa using List.find?_some found⟩

/-- The target of a terminal is a block of the method. -/
theorem LlirMethod.WellFormed.target (wellFormed : method.WellFormed) (mem : block ∈ method.blocks) (target : Nat)
    (successor : target ∈ block.terminal.successors) : ∃ next, method.block target = some next := by
  obtain ⟨next, inside, same⟩ := List.mem_map.mp (wellFormed.targets block mem target successor)
  refine Option.isSome_iff_exists.mp (List.find?_isSome.mpr ⟨next, inside, ?_⟩)
  rw [same, beq_self_eq_true]

/-- The label of a block has the block behind it. -/
theorem CodeGenerator.Emits.here (emits : g.Emits before lines) (mem : method ∈ g.llir.methods) {id line : Nat}
    (found : method.block id = some block) (label : lines[line]? = some (.label (blockSymbol id))) :
    BlockAt (g.inMethod before method) lines method block 0 (line + 1) := by
  obtain ⟨inside, rfl⟩ := LlirMethod.block_mem found
  obtain ⟨line', start, -, here⟩ := emits.blockAt mem inside
  have same := labelLine_of_getElem? emits.distinct label
  obtain rfl : line' = line := Option.some.inj (start.symm.trans same)
  exact here

/-- The code of some blocks starts with the label of the first one. -/
private theorem placed_label {g : CodeGenerator} {line : Nat} {blocks : List LlirBlock}
    (placed : Placed lines line (generateBlockLines g (block :: blocks))) :
    lines[line]? = some (.label (blockSymbol block.id)) := by
  rw [generateBlockLines, List.cons_append, List.cons_append] at placed
  exact placed.head

theorem codeStep_label (running : c.status = .running) {symbol : AssemblySymbol}
    (here : lines[c.line]? = some (.label symbol)) : codeStep lines loaded c = c.moveTo (c.line + 1) c.processor := by
  rw [codeStep_of running here]
  rfl

/-- A jump to a block. -/
theorem CodeGenerator.Emits.jumps (emits : g.Emits before lines) (mem : method ∈ g.llir.methods) {id : Nat}
    (found : method.block id = some block) : ∃ line, lines[line]? = some (.label (blockSymbol id)) ∧
      ∀ c : CodeState, c.goTo lines (blockLabel id) = c.moveTo line c.processor := by
  obtain ⟨inside, rfl⟩ := LlirMethod.block_mem found
  obtain ⟨line, start, label, -⟩ := emits.blockAt mem inside
  refine ⟨line, label, fun c => ?_⟩
  rw [CodeState.goTo, start]
  rfl

/-- A state in which the machine runs on in the frame on top. -/
theorem Related.of_running (status : state.status = .running) {frame' : Frame}
    (tracks : Tracks loaded before lines outside limit state c frame' rest method block) :
    Related loaded before lines outside limit state c :=
  ⟨⟨tracks.running.trans status.symm, tracks.holds.globals, .inl tracks.calls⟩, fun _ => ⟨_, _, _, _, tracks⟩⟩

/-- A state in which both have ended. -/
theorem Related.of_ended (stopped : state.status ≠ .running) (observes : Observes loaded state c) :
    Related loaded before lines outside limit state c := ⟨observes, fun running => absurd running stopped⟩

/-- After a store the machine is at the next assignment. -/
theorem related_store (status : state.status = .running) (running : c.status = .running) (mem : method ∈ g.llir.methods)
    (found : g.llir.method frame.method = some method) (code : method.block frame.block = some block)
    (here : BlockAt (g.inMethod before method) lines method block (frame.index + 1) c.line)
    {field : LlirField} {position : Nat} {value : Word}
    (holds : Holds loaded before method c.processor (g.llir.storeLocal frame.locals field position value)
      (g.llir.storeGlobal state.globals field position value))
    (callers : CallersWait loaded before lines outside limit c.processor.memory (c.processor.registers .rbp) rest)
    (calls : SameCalls c.calls state.calls) :
    Related loaded before lines outside limit (state.store g.llir frame rest field position value) c := by
  rw [MachineState.store_eq]
  exact .of_running status ⟨running, rfl, mem, found, code, here, holds, callers, calls⟩

variable (prepared : Prepared loaded before lines outside limit environment)
  (tracks : Tracks loaded before lines outside limit state c frame rest method block) (status : state.status = .running)
include prepared tracks status

omit prepared tracks status in
private theorem generateAssignmentLines_ne_nil (g : CodeGenerator) (assignment : LlirAssignment) :
    generateAssignmentLines g assignment ≠ [] := by
  have stores (destination : LlirField) (register : Register) : storeFromRegister g destination register ≠ [] := by
    rw [storeFromRegister]
    split <;> exact List.cons_ne_nil _ _
  cases assignment with
  | arrayUpdate index value destination =>
    exact List.append_ne_nil_of_right_ne_nil _ (List.cons_ne_nil _ _)
  | _ => exact List.append_ne_nil_of_right_ne_nil _ (stores _ _)

/-- The code follows an assignment that is no call. -/
theorem follows_assignment {assignment : LlirAssignment} (next : block.assignments[frame.index]? = some assignment)
    (noCall : ∀ name arguments destination, assignment ≠ .methodCall name arguments destination)
    (stray : environment.stray state.strays = accessedWord loaded before method c.processor assignment)
    (defined : (stepAssignment g.llir environment state frame rest assignment).status ≠ .stuck) :
    ∃ c', LeadsTo (codeStep lines loaded) (codeStep lines loaded c) c' ∧
      Related loaded before lines outside limit (stepAssignment g.llir environment state frame rest assignment) c' := by
  obtain ⟨compilable, emits, -, -, strings, -, small⟩ := prepared
  obtain ⟨running, frames, mem, found, code, here, holds, callers, calls⟩ := tracks
  have storable := compilable.storable method mem
  obtain ⟨names, writes, resolved⟩ := compilable.resolved method mem
  have listed := List.mem_of_getElem? next
  obtain ⟨placed, here'⟩ := here.assignment next
  obtain alike | ⟨fault, trapped⟩ | undefined := holds.assignment compilable emits mem strings rfl rfl
    (resolved.assignments block (LlirMethod.block_mem code).1 assignment listed).1 noCall stray rest
  · obtain ⟨s', field, position, value, strays, run, same, known, inside, memory, step⟩ := alike.stores
    have leads := leadsTo_someLines emits.encodable (generateAssignmentLines_ne_nil _ assignment) running placed run
    have callers' : CallersWait loaded before lines outside limit s'.memory (s'.registers .rbp) rest := by
      rw [same.2]
      refine callers.of_agree compilable small fun place low high => ?_
      rw [memory]
      exact holds.write_above storable emits mem known inside low high
    refine ⟨_, leads, ?_⟩
    rw [step]
    exact @related_store _ _ _ _ _ _ { state with strays := strays }
      (c.moveTo (c.line + (generateAssignmentLines (g.inMethod before method) assignment).length) s') _ _ _ _ status running
      mem found code here' _ _ _ (holds.write storable emits mem known inside same memory) callers' calls
  · obtain ⟨c', leads, trap, same, memory⟩ := leadsTo_fault emits.encodable running placed fault
    refine ⟨c', leads, ?_⟩
    rw [trapped]
    refine .of_ended (by simp) ⟨trap, ?_, .inl ?_⟩
    · rw [memory]
      exact holds.globals
    · rw [same]
      exact calls
  · rw [undefined] at defined
    exact absurd rfl defined

/-- The code comes to the label of a block and goes into the block. -/
private theorem related_label (c' : CodeState) (running : c'.status = .running) {target : Nat} {next : LlirBlock}
    (found : method.block target = some next) (label : lines[c'.line]? = some (.label (blockSymbol target)))
    (frames : SameFrame c.processor c'.processor) (memory : c'.processor.memory = c.processor.memory)
    (calls : c'.calls = c.calls) :
    Related loaded before lines outside limit
      { state with frames := { frame with block := target, index := 0 } :: rest } (codeStep lines loaded c') := by
  have holds : Holds loaded before method c'.processor frame.locals state.globals := by
    refine ⟨tracks.holds.body.of_sameFrame frames, ?_, ?_⟩
    · rw [memory, frames.2]
      exact tracks.holds.locals
    · rw [memory]
      exact tracks.holds.globals
  rw [codeStep_label running label]
  refine .of_running status ⟨running, rfl, tracks.mem, tracks.found, found, prepared.emits.here tracks.mem found label,
    holds, ?_, ?_⟩
  · show CallersWait loaded before lines outside limit c'.processor.memory (c'.processor.registers .rbp) rest
    rw [memory, frames.2]
    exact tracks.callers
  · show SameCalls c'.calls state.calls
    rw [calls]
    exact tracks.calls

/-- The code follows a jump to the label of its target. -/
theorem follows_jump {target : Nat} (terminal : block.terminal = .jump target)
    (last : block.assignments[frame.index]? = none) :
    ∃ c', LeadsTo (codeStep lines loaded) (codeStep lines loaded c) c' ∧ Related loaded before lines outside limit
      (stepTerminal g.llir environment state frame rest block.terminal) c' := by
  obtain ⟨front, behind, split, placed⟩ := tracks.here.terminal last
  obtain ⟨next, found⟩ := (prepared.compilable.wellFormed method tracks.mem).target
    (LlirMethod.block_mem tracks.code).1 target (by rw [terminal]; exact List.mem_singleton_self target)
  rw [terminal] at placed ⊢
  rw [generateTerminal, generateJump] at placed
  by_cases elided : (g.inMethod before method).pinholeOptimize ∧ behind.head?.map LlirBlock.id = some target
  · -- the block follows
    rw [if_pos elided, List.nil_append] at placed
    cases behind with
    | nil => cases elided.2
    | cons following others =>
      obtain rfl : following.id = target := Option.some.inj elided.2
      have label := placed_label placed
      exact ⟨_, LeadsTo.refl _, related_label prepared tracks status c tracks.running found label ⟨rfl, rfl⟩ rfl rfl⟩
  · rw [if_neg elided] at placed
    obtain ⟨line, label, jumps⟩ := prepared.emits.jumps tracks.mem found
    have step : codeStep lines loaded c = c.moveTo line c.processor := by
      rw [codeStep_of tracks.running placed.head]
      exact jumps c
    refine ⟨_, leadsTo_step _, ?_⟩
    rw [step]
    exact related_label prepared tracks status (c.moveTo line c.processor) tracks.running found label ⟨rfl, rfl⟩ rfl rfl

omit prepared tracks status in
/-- The conditional jumps are those of the comparisons. -/
private theorem mnemonic_taken (type : LlirBranchType) (unsignedComparison : Bool) (left right : Word) :
    (type.mnemonic unsignedComparison).taken (some (compareFlags left right)) =
      some (type.holds unsignedComparison left right) := by
  have less : left.ule right = (left.ult right || left == right) := by
    rw [Bool.eq_iff_iff]
    simp only [BitVec.ule, BitVec.ult, Bool.or_eq_true, decide_eq_true_eq, beq_iff_eq, BitVec.toNat_eq]
    omega
  have greater : right.ult left = (!left.ult right && !(left == right)) := by
    rw [Bool.eq_iff_iff]
    simp only [BitVec.ult, Bool.and_eq_true, Bool.not_eq_true', decide_eq_true_eq, decide_eq_false_iff_not,
      beq_eq_false_iff_ne, ne_eq, BitVec.toNat_eq]
    omega
  have greaterEqual : right.ule left = !left.ult right := by
    rw [Bool.eq_iff_iff]
    simp only [BitVec.ule, BitVec.ult, Bool.not_eq_true', decide_eq_true_eq, decide_eq_false_iff_not]
    omega
  cases type <;> cases unsignedComparison
  case less.false => exact congrArg some (less_flags left right)
  case lessEqual.false => exact congrArg some (lessEqual_flags left right)
  case lessEqual.true => exact congrArg some less.symm
  case greater.false => exact congrArg some (greater_flags left right)
  case greater.true => exact congrArg some greater.symm
  case greaterEqual.false => exact congrArg some (greaterEqual_flags left right)
  case greaterEqual.true => exact congrArg some greaterEqual.symm
  all_goals rfl

omit status in
/-- The comparison in front of a conditional jump. -/
private theorem executeLines_comparison {branch : LlirBranch} (terminal : block.terminal = .branch branch) :
    ∃ s', executeLines loaded.symbols c.processor (terminalLines (g.inMethod before method) block.terminal) = some s' ∧
      SameFrame c.processor s' ∧ s'.memory = c.processor.memory ∧
      s'.flags = some (compareFlags (state.operand g.llir environment frame branch.left)
        (state.operand g.llir environment frame branch.right)) := by
  obtain ⟨compilable, emits, -, -, strings, -, -⟩ := prepared
  obtain ⟨names, writes, resolved⟩ := compilable.resolved method tracks.mem
  have known := resolved.terminals block (LlirMethod.block_mem tracks.code).1
  rw [terminal] at known ⊢
  have left := tracks.holds.operand compilable emits tracks.mem strings rfl rfl (.inl known.1)
  have right := tracks.holds.operand compilable emits tracks.mem strings rfl rfl (.inl known.2)
  have loadLeft := @executeLines_loadToRegister (g.inMethod before method) loaded.symbols c.processor branch.left
    (tracks.holds.aligned_operand compilable emits tracks.mem (.inl known.1)) .r11 (by decide)
  rw [left] at loadLeft
  have loadRight := @executeLines_loadToRegister (g.inMethod before method) loaded.symbols
    (c.processor.setRegister .r11 (state.operand g.llir environment frame branch.left)) branch.right
    (tracks.holds.aligned_operand compilable emits tracks.mem (.inl known.2)) .r10 (by decide)
  have same : operandWord (g.inMethod before method) loaded.symbols
      ((c.processor.setRegister .r11 (state.operand g.llir environment frame branch.left)).registers .rbp)
      (c.processor.setRegister .r11 (state.operand g.llir environment frame branch.left)).memory branch.right =
      state.operand g.llir environment frame branch.right := right
  rw [same] at loadRight
  refine ⟨((c.processor.setRegister .r11 (state.operand g.llir environment frame branch.left)).setRegister .r10
    (state.operand g.llir environment frame branch.right)).withFlags (some (compareFlags
      (state.operand g.llir environment frame branch.left) (state.operand g.llir environment frame branch.right))),
    ?_, ⟨rfl, rfl⟩, rfl, rfl⟩
  rw [terminalLines, executeLines_append, executeLines_append, loadLeft, Option.bind_eq_bind, Option.bind_some, loadRight]
  rfl

/-- The code follows a branch to the label of the side that is taken. -/
theorem follows_branch {branch : LlirBranch} (terminal : block.terminal = .branch branch)
    (last : block.assignments[frame.index]? = none) :
    ∃ c', LeadsTo (codeStep lines loaded) (codeStep lines loaded c) c' ∧ Related loaded before lines outside limit
      (stepTerminal g.llir environment state frame rest block.terminal) c' := by
  obtain ⟨front, behind, split, placed⟩ := tracks.here.terminal last
  obtain ⟨s', run, same, memory, flags⟩ := executeLines_comparison prepared tracks terminal
  have wellFormed := prepared.compilable.wellFormed method tracks.mem
  have inside := (LlirMethod.block_mem tracks.code).1
  rw [terminal] at placed run ⊢
  have code : generateTerminal (g.inMethod before method) (.branch branch) (behind.head?.map LlirBlock.id) =
      terminalLines (g.inMethod before method) (.branch branch) ++
        [.jump (branch.type.mnemonic branch.unsignedComparison) (blockSymbol branch.falseBlock)] := by
    rw [generateTerminal, generateBranch, terminalLines]
    simp only [List.append_assoc, List.cons_append, List.nil_append]
  rw [code, List.append_assoc] at placed
  have leads := leadsTo_lines prepared.emits.encodable tracks.running placed.left run
  generalize hc' : c.moveTo (c.line + (terminalLines (g.inMethod before method) (.branch branch)).length) s' = c' at leads
  have running' : c'.status = .running := hc' ▸ tracks.running
  have processor' : c'.processor = s' := hc' ▸ rfl
  have calls' : c'.calls = c.calls := hc' ▸ rfl
  have here : Placed lines c'.line ([.jump (branch.type.mnemonic branch.unsignedComparison)
      (blockSymbol branch.falseBlock)] ++ generateBlockLines (g.inMethod before method) behind) := hc' ▸ placed.right
  have jump := @codeStep_of _ _ loaded _ running' _ here.head
  rw [CodeState.executeLine, processor', flags, mnemonic_taken] at jump
  rw [stepTerminal]
  cases holds : branch.type.holds branch.unsignedComparison (state.operand g.llir environment frame branch.left)
    (state.operand g.llir environment frame branch.right) with
  | true =>
    obtain ⟨next, found⟩ := wellFormed.target inside branch.falseBlock (by
      rw [terminal]
      exact List.mem_cons_of_mem _ List.mem_cons_self)
    obtain ⟨line, label, jumps⟩ := prepared.emits.jumps tracks.mem found
    rw [holds] at jump
    have step : codeStep lines loaded c' = c'.moveTo line s' := by
      rw [jump, ← processor']
      exact jumps c'
    have leads' := leads.trans (leadsTo_step c')
    rw [step] at leads'
    exact ⟨_, leadsTo_codeStep leads', related_label prepared tracks status (c'.moveTo line s') running' found label
      same memory calls'⟩
  | false =>
    have falls : ∃ following others, behind = following :: others ∧ following.id = branch.trueBlock := by
      cases behind with
      | nil =>
        obtain ⟨final, isLast, leaves⟩ := wellFormed.last
        rw [split, List.getLast?_append, List.getLast?_singleton, Option.some_or] at isLast
        obtain rfl := Option.some.inj isLast
        rw [terminal] at leaves
        cases leaves
      | cons following others =>
        have chain := wellFormed.chain
        rw [split, List.isChain_append] at chain
        exact ⟨following, others, rfl, ((List.isChain_cons_cons.mp chain.2.1).1.branch branch terminal).symm⟩
    obtain ⟨following, others, rfl, same'⟩ := falls
    obtain ⟨next, found⟩ := wellFormed.target inside branch.trueBlock (by
      rw [terminal]
      exact List.mem_cons_self)
    rw [holds] at jump
    have step : codeStep lines loaded c' = c'.moveTo (c'.line + 1) s' := by
      rw [jump, ← processor']
      rfl
    have label : lines[c'.line + 1]? = some (.label (blockSymbol branch.trueBlock)) := same' ▸ placed_label here.tail
    have leads' := leads.trans (leadsTo_step c')
    rw [step] at leads'
    exact ⟨_, leadsTo_codeStep leads', related_label prepared tracks status (c'.moveTo (c'.line + 1) s') running' found
      label same memory calls'⟩

end

end Roast
