import Roast.Assembly.CodeTransfers

/-! The emitted code follows the machine out of a method: to the caller, which stores the value, or out of the program. -/
namespace Roast
open Processor Systems

section
variable {g : CodeGenerator} {loaded : Loaded g.llir.fields} {before : LlirMethod → Offsets} {lines : List AssemblyLine}
  {outside : Word} {limit : Nat} {environment : Environment} {state : MachineState} {c : CodeState} {frame : Frame}
  {rest : List Frame} {method : LlirMethod} {block : LlirBlock}

/-- The lines behind a call give the arguments' room back and store the value in `rax`. -/
theorem related_resume (prepared : Prepared loaded before lines outside limit environment) (status : state.status = .running)
    (running : c.status = .running) (mem : method ∈ g.llir.methods) (found : g.llir.method frame.method = some method)
    (code : method.block frame.block = some block) {name : String} {arguments : List LlirOperand} {destination : LlirField}
    (call : block.assignments[frame.index]? = some (.methodCall name arguments destination))
    (behind : Placed lines c.line (afterCall (g.inMethod before method) arguments destination))
    (next : BlockAt (g.inMethod before method) lines method block (frame.index + 1)
      (c.line + (afterCall (g.inMethod before method) arguments destination).length))
    (room : (c.processor.registers .rsp).toNat + stackRoom arguments.length +
      (generateStackAllocation (before method) method).1 = (c.processor.registers .rbp).toNat)
    (aligned : (c.processor.registers .rsp).toNat % 16 = 0) (below : loaded.bottom ≤ (c.processor.registers .rsp).toNat)
    (above : (c.processor.registers .rbp).toNat + 16 ≤ loaded.top)
    (locals : LocalsHold loaded before method c.processor.memory (c.processor.registers .rbp) frame.locals)
    (globals : GlobalsHold loaded c.processor.memory state.globals)
    (callers : CallersWait loaded before lines outside limit c.processor.memory (c.processor.registers .rbp) rest)
    (calls : SameCalls c.calls state.calls) :
    ∃ c', LeadsTo (codeStep lines loaded) c c' ∧ Related loaded before lines outside limit
      (state.store g.llir frame rest destination 0 (c.processor.registers .rax)) c' := by
  obtain ⟨compilable, emits, -, -, -, -, small⟩ := prepared
  have storable := compilable.storable method mem
  obtain ⟨names, writes, resolved⟩ := compilable.resolved method mem
  have listed := List.mem_of_getElem? call
  have known : destination ∈ g.llir.fields ++ method.fields :=
    (resolved.assignments block (LlirMethod.block_mem code).1 _ listed).1.2.2
  have few := storable.callable.calls block (LlirMethod.block_mem code).1 name arguments destination listed
  have even : stackRoom arguments.length % 16 = 0 := by
    rw [stackRoom]
    omega
  have bounded := (c.processor.registers .rbp).isLt
  -- the state with the room given back
  obtain ⟨q, top, base, memory⟩ : ∃ q : Processor, (q.registers .rsp).toNat =
      (c.processor.registers .rsp).toNat + stackRoom arguments.length ∧
      q.registers .rbp = c.processor.registers .rbp ∧ q.memory = c.processor.memory := by
    refine ⟨c.processor.setRegister .rsp (c.processor.registers .rsp + BitVec.ofNat 64 (stackRoom arguments.length)), ?_,
      rfl, rfl⟩
    show (c.processor.registers .rsp + BitVec.ofNat 64 (stackRoom arguments.length)).toNat = _
    rw [BitVec.toNat_add, BitVec.toNat_ofNat]
    omega
  have holds : Holds loaded before method q frame.locals state.globals := by
    refine ⟨⟨?_, ?_, ?_, ?_⟩, ?_, ?_⟩
    · rw [top, base]
      exact room
    · omega
    · show loaded.bottom ≤ _
      omega
    · rw [base]
      exact above
    · rw [memory, base]
      exact locals
    · rw [memory]
      exact globals
  have place := holds.aligned_zero compilable emits mem known
  rw [base] at place
  obtain ⟨s', run, top', base', memory'⟩ := @executeLines_afterCall (g.atMethod before method)
    loaded.toAddressSpace method c.processor arguments few destination place
  have frames : SameFrame q s' := by
    refine ⟨BitVec.eq_of_toNat_eq ?_, base'.trans base.symm⟩
    rw [top', top, BitVec.toNat_add, BitVec.toNat_ofNat]
    omega
  have stored : s'.memory = Function.update q.memory
      (elementPlace loaded before method (q.registers .rbp) destination 0) (c.processor.registers .rax) := by
    rw [elementPlace_zero, base, memory]
    exact memory'
  have first : ((0 : Nat) : Int) < destination.valueCount := compilable.positive mem known
  have callers' : CallersWait loaded before lines outside limit s'.memory (s'.registers .rbp) rest := by
    rw [base']
    refine callers.of_agree compilable small fun other low high => ?_
    rw [stored, ← memory]
    exact holds.write_above storable emits mem known first (base.symm ▸ low) high
  refine ⟨_, leadsTo_lines emits.encodable running behind run, ?_⟩
  exact @related_store _ _ _ _ _ _ state
    (c.moveTo (c.line + (afterCall (g.inMethod before method) arguments destination).length) s') _ _ _ _ status running
    mem found code next _ _ _ (holds.write storable emits mem known first frames stored) callers' calls

variable (prepared : Prepared loaded before lines outside limit environment)
  (tracks : Tracks loaded before lines outside limit state c frame rest method block) (status : state.status = .running)

/-- A return to a line behind a call goes there. -/
private theorem returnFrom_call {lines : List AssemblyLine} (links : g.Links lines loaded.behind outside) {line : Nat}
    {call : AssemblySymbol} (here : lines[line]? = some (.call call)) {processor : Processor}
    (popped : c.processor.pop = some (loaded.behind line, processor)) :
    c.returnFrom lines loaded = c.moveTo (line + 1) processor := by
  have found : (List.range lines.length).find? (fun line' =>
      (∃ call ∈ lines[line']?, call.IsCall) ∧ loaded.behind line' = loaded.behind line) = some line := by
    refine List.find?_range_eq_some.mpr ⟨?_, ?_, ?_⟩
    · exact decide_eq_true ⟨⟨_, here, trivial⟩, rfl⟩
    · exact List.mem_range.mpr (List.getElem?_eq_some_iff.mp here).1
    · intro line' earlier
      refine Bool.not_eq_true' _ ▸ decide_eq_false ?_
      rintro ⟨⟨other, here', isCall⟩, same⟩
      cases other with
      | call call' => exact absurd (links.distinct line' line call' call here' here same) (by omega)
      | _ => cases isCall
  rw [CodeState.returnFrom, popped]
  dsimp only
  rw [found]
  rfl

/-- A return to any other place leaves the program. -/
private theorem returnFrom_outside {lines : List AssemblyLine} (links : g.Links lines loaded.behind outside)
    {processor : Processor}
    (popped : c.processor.pop = some (outside, processor)) : c.returnFrom lines loaded =
      { c with status := .returned (processor.read .rax), processor := processor } := by
  have missed : (List.range lines.length).find? (fun line' =>
      (∃ call ∈ lines[line']?, call.IsCall) ∧ loaded.behind line' = outside) = none := by
    refine List.find?_eq_none.mpr fun line' _ => ?_
    rw [decide_eq_true_eq]
    rintro ⟨⟨other, here', isCall⟩, same⟩
    cases other with
    | call call' => exact links.outside line' call' here' same
    | _ => cases isCall
  rw [CodeState.returnFrom, popped]
  dsimp only
  rw [missed]

include prepared tracks

/-- The code of a return up to the `ret`, which takes the address above the frame. -/
private theorem executeLines_returns {source : LlirOperand} (terminal : block.terminal = .llirReturn source) :
    ∃ s' s'', executeLines loaded.symbols c.processor (loadToRegister (g.inMethod before method) source .rax ++ leaveMethod) =
        some s' ∧
      s'.pop = some (c.processor.memory (c.processor.registers .rbp + 8), s'') ∧
      s''.registers .rsp = c.processor.registers .rbp + 8 + 8 ∧
      s''.registers .rbp = c.processor.memory (c.processor.registers .rbp) ∧
      s''.registers .rax = state.operand g.llir environment frame source ∧ s''.memory = c.processor.memory := by
  obtain ⟨compilable, emits, -, -, strings, -, -⟩ := prepared
  obtain ⟨names, writes, resolved⟩ := compilable.resolved method tracks.mem
  have known := resolved.terminals block (LlirMethod.block_mem tracks.code).1
  rw [terminal] at known
  have value := tracks.holds.operand compilable emits tracks.mem strings rfl rfl (.inl known)
  have load := @executeLines_loadToRegister (g.inMethod before method) loaded.symbols c.processor source
    (tracks.holds.aligned_operand compilable emits tracks.mem (.inl known)) .rax (by decide)
  rw [value] at load
  have body := tracks.holds.body
  have aligned := body.base_aligned (compilable.storable method tracks.mem).callable.positive
  have above := body.above
  have top := loaded.bounded
  have address : (c.processor.registers .rbp + 8).toNat = (c.processor.registers .rbp).toNat + 8 := by
    rw [BitVec.toNat_add, show (8 : Word).toNat = 8 from rfl]
    omega
  have leave := @executeLines_leave loaded.symbols
    (c.processor.setRegister .rax (state.operand g.llir environment frame source)) (by
      show (c.processor.registers .rbp).toNat % 8 = 0
      omega)
  have popped : (((c.processor.setRegister .rax (state.operand g.llir environment frame source)).setRegister .rsp
      (c.processor.registers .rbp + 8)).setRegister .rbp (c.processor.memory (c.processor.registers .rbp))).load
        (c.processor.registers .rbp + 8) = some (c.processor.memory (c.processor.registers .rbp + 8)) :=
    load_of (by omega)
  refine ⟨((c.processor.setRegister .rax (state.operand g.llir environment frame source)).setRegister .rsp
    (c.processor.registers .rbp + 8)).setRegister .rbp (c.processor.memory (c.processor.registers .rbp)),
    (((c.processor.setRegister .rax (state.operand g.llir environment frame source)).setRegister .rsp
      (c.processor.registers .rbp + 8)).setRegister .rbp (c.processor.memory (c.processor.registers .rbp))).setRegister .rsp
        (c.processor.registers .rbp + 8 + 8), ?_, ?_, rfl, rfl, rfl, rfl⟩
  · rw [executeLines_append, load, Option.bind_eq_bind, Option.bind_some, leave]
    rfl
  · show Processor.load _ (c.processor.registers .rbp + 8) >>= _ = _
    rw [popped]
    rfl

include status

/-- The code follows a return to the waiting caller, or out of `main`. -/
theorem follows_return {source : LlirOperand} (terminal : block.terminal = .llirReturn source)
    (last : block.assignments[frame.index]? = none) :
    ∃ c', LeadsTo (codeStep lines loaded) (codeStep lines loaded c) c' ∧ Related loaded before lines outside limit
      (stepTerminal g.llir environment state frame rest block.terminal) c' := by
  obtain ⟨front, after, split, placed⟩ := tracks.here.terminal last
  obtain ⟨s', s'', run, popped, top, base, value, memory⟩ := executeLines_returns prepared tracks terminal
  rw [terminal] at placed ⊢
  have code : generateTerminal (g.inMethod before method) (.llirReturn source) (after.head?.map LlirBlock.id) =
      (loadToRegister (g.inMethod before method) source .rax ++ leaveMethod) ++ [.instruction .ret []] := by
    rw [generateTerminal, generateReturn, leaveMethod, List.append_assoc]
    rfl
  rw [code, List.append_assoc] at placed
  have leads := leadsTo_lines prepared.emits.encodable tracks.running placed.left run
  generalize hc' : c.moveTo (c.line + (loadToRegister (g.inMethod before method) source .rax ++ leaveMethod).length) s' =
    c' at leads
  have running' : c'.status = .running := hc' ▸ tracks.running
  have processor' : c'.processor = s' := hc' ▸ rfl
  have calls' : c'.calls = c.calls := hc' ▸ rfl
  have here : lines[c'.line]? = some (.instruction .ret []) := hc' ▸ placed.right.head
  have step : codeStep lines loaded c' = c'.returnFrom lines loaded := by
    rw [codeStep_of running' here, CodeState.executeLine, if_pos rfl]
  rw [← processor'] at popped
  rw [stepTerminal]
  have callers := tracks.callers
  cases rest with
  | nil =>
    obtain ⟨address, -⟩ := callers
    rw [address] at popped
    have final : s''.read .rax = state.operand g.llir environment frame source := value
    rw [returnFrom_outside prepared.links popped, final] at step
    refine ⟨_, leadsTo_codeStep leads, .of_ended (by simp [returnValue]) ⟨?_, ?_, .inl ?_⟩⟩
    · rw [step]
      rfl
    · rw [step]
      show GlobalsHold loaded s''.memory state.globals
      rw [memory]
      exact tracks.holds.globals
    · rw [step]
      show SameCalls c'.calls state.calls
      rw [calls']
      exact tracks.calls
  | cons caller rest' =>
    obtain ⟨callerBase, waits, wait⟩ := callers
    cases waits with
    | @intro method' block' name arguments destination line mem found code call here' behind next saved address room below
        locals =>
      rw [address] at popped
      rw [returnFrom_call prepared.links here' popped] at step
      have body := tracks.holds.body
      have aligned := body.base_aligned (prepared.compilable.storable method tracks.mem).callable.positive
      have frame' := body.frame
      have under : loaded.bottom ≤ (c.processor.registers .rsp).toNat := body.below
      have base' : s''.registers .rbp = callerBase := base.trans saved
      have bounded := callerBase.isLt
      have top' : (s''.registers .rsp).toNat = (c.processor.registers .rbp).toNat + 16 := by
        rw [top, BitVec.toNat_add, BitVec.toNat_add, show (8 : Word).toNat = 8 from rfl]
        omega
      obtain ⟨c'', resumes, related⟩ := related_resume (c := c'.moveTo (line + 1) s'') prepared status running' mem found code
        call behind next
        (by
          show (s''.registers .rsp).toNat + _ + _ = (s''.registers .rbp).toNat
          rw [top', base', ← room])
        (by
          show (s''.registers .rsp).toNat % 16 = 0
          omega)
        (by
          show loaded.bottom ≤ (s''.registers .rsp).toNat
          omega)
        (by
          show (s''.registers .rbp).toNat + 16 ≤ loaded.top
          rw [base']
          exact below)
        (by
          show LocalsHold loaded before method' s''.memory (s''.registers .rbp) caller.locals
          rw [memory, base']
          exact locals)
        (by
          show GlobalsHold loaded s''.memory state.globals
          rw [memory]
          exact tracks.holds.globals)
        (by
          show CallersWait loaded before lines outside limit s''.memory (s''.registers .rbp) rest'
          rw [memory, base']
          exact wait)
        (by
          show SameCalls c'.calls state.calls
          rw [calls']
          exact tracks.calls)
      refine ⟨c'', ?_, ?_⟩
      · have reached := leadsTo_codeStep leads
        rw [step] at reached
        exact reached.trans resumes
      · have waiting : caller.assignment g.llir = some (.methodCall name arguments destination) := by
          rw [Frame.assignment, found, Option.bind_some, code, Option.bind_some, call]
        rw [returnValue, waiting]
        have same : (c'.moveTo (line + 1) s'').processor.registers .rax = state.operand g.llir environment frame source := value
        rw [same] at related
        exact related

omit status in
/-- The exit of the program passes the status to `exit`. -/
theorem follows_exit {value : Word} (terminal : block.terminal = .shitYourself value)
    (last : block.assignments[frame.index]? = none) :
    ∃ c', LeadsTo (codeStep lines loaded) (codeStep lines loaded c) c' ∧ Related loaded before lines outside limit
      (stepTerminal g.llir environment state frame rest block.terminal) c' := by
  obtain ⟨front, after, split, placed⟩ := tracks.here.terminal last
  have inside := (LlirMethod.block_mem tracks.code).1
  have absent := prepared.links.exit method tracks.mem block inside value terminal
  rw [terminal] at placed ⊢
  rw [generateTerminal, generateShitYourself] at placed
  have moved : codeStep lines loaded c = c.moveTo (c.line + 1) (c.processor.setRegister .rdi value) := by
    rw [codeStep_of tracks.running placed.head]
    exact executeLine_instruction (prepared.emits.encodable _ (List.mem_of_getElem? placed.head)) rfl
  generalize hc' : c.moveTo (c.line + 1) (c.processor.setRegister .rdi value) = c' at moved
  have running' : c'.status = .running := hc' ▸ tracks.running
  have here : lines[c'.line]? = some (.call ⟨"exit", .exit⟩) := hc' ▸ placed.tail.head
  have aligned : (c'.processor.registers .rsp).toNat % 16 = 0 := hc' ▸ tracks.holds.body.aligned
  have first : passedWord c'.processor 0 = value := hc' ▸ rfl
  have step : codeStep lines loaded c' =
      { c' with status := .exited value, calls := c'.calls ++ [("exit", passedWord c'.processor)] } := by
    rw [codeStep_of running' here, CodeState.executeLine, CodeState.callFunction]
    dsimp only
    rw [absent]
    dsimp only
    rw [if_pos aligned, prepared.serves.exit, first]
    rfl
  refine ⟨_, leadsTo_codeStep (leadsTo_step c), .of_ended (by simp [stepTerminal]) ?_⟩
  rw [moved, step]
  refine ⟨rfl, ?_, .inr ⟨c'.calls, _, rfl, ?_⟩⟩
  · subst hc'
    exact tracks.holds.globals
  · subst hc'
    exact tracks.calls

end

end Roast
