import Roast.Assembly.CodeReturns
import Roast.Assembly.CodeStores
import Roast.Assembly.GlobalInitialization

/-! The emitted code follows the machine into a call: to the first block of a method of the program, with the arguments in
its frame, or through a function outside. -/
namespace Roast
open Processor Systems

section
variable {g : CodeGenerator} {loaded : Loaded g.llir.fields} {before : LlirMethod → Offsets} {lines : List AssemblyLine}
  {outside : Word} {limit : Nat} {environment : Environment} {state : MachineState} {c : CodeState} {frame : Frame}
  {rest : List Frame} {method callee : LlirMethod} {block : LlirBlock} {name : String} {arguments : List LlirOperand}
  {destination : LlirField}

private theorem bindArguments_position (store : Store) (arguments : List (LlirField × Word)) (name : String)
    {position : Nat}
    (later : position ≠ 0) : bindArguments store arguments name position = store name position := by
  induction arguments generalizing store with
  | nil => rfl
  | cons argument rest ih =>
    rw [bindArguments, List.foldl_cons]
    refine (ih _).trans (if_neg fun same => later same.2)

private theorem elementPlace_congr {field other : LlirField} (same : field.identifier = other.identifier) (base : Word)
    (position : Nat) :
    elementPlace loaded before method base field position = elementPlace loaded before method base other position := by
  simp only [elementPlace, fieldPlace, same]

variable (loaded before callee) in
def frameWordsAt (s : Processor) : String → Nat → Word := fun name position =>
  s.memory (elementPlace loaded before callee (s.registers .rbp) (wordField name) position)

/-- The declaration makes the frame of the machine, if what the frame had before is what the stack had. -/
theorem Declared.localsHold {s s' : Processor}
    (declared : Declared (g.atMethod before callee) loaded.toAddressSpace callee s s')
    (callable : callee.Callable) {values : List Word} (arity : callee.arguments.length = values.length)
    (received : ∀ k value, values[k]? = some value → receivedWord s k = value) {activation : Nat}
    (garbage : environment.garbage activation = frameWordsAt loaded before callee s') :
    LocalsHold loaded before callee s'.memory (s'.registers .rbp)
      (enterMethod environment activation callee values).locals := by
  intro field isLocal position inside
  show _ = (bindArguments (fun name position => ⟨environment.garbage activation name position, .garbage⟩)
    (callee.arguments.zip values) field.identifier position).value
  have fresh : s'.memory (elementPlace loaded before callee (s'.registers .rbp) field position) =
      environment.garbage activation field.identifier position := by
    rw [garbage, frameWordsAt]
    exact congrArg s'.memory (elementPlace_congr rfl _ position)
  by_cases first : position = 0
  · subst first
    by_cases parameter : ∃ other ∈ callee.arguments, other.identifier = field.identifier
    · obtain ⟨other, mem, same⟩ := parameter
      obtain ⟨k, at_k⟩ := List.mem_iff_getElem?.mp mem
      have small : k < values.length := arity ▸ (List.getElem?_eq_some_iff.mp at_k).1
      have value := List.getElem?_eq_getElem small
      have pair : (other, values[k]) ∈ callee.arguments.zip values :=
        List.mem_iff_getElem?.mpr ⟨k, List.getElem?_zip_eq_some.mpr ⟨at_k, value⟩⟩
      have names : ((callee.arguments.zip values).map fun argument => argument.1.identifier).Nodup := by
        have split : (callee.arguments.zip values).map (fun argument => argument.1.identifier) =
            ((callee.arguments.zip values).map Prod.fst).map LlirField.identifier := by
          rw [List.map_map]
          rfl
        rw [split, List.map_fst_zip arity.le]
        exact callable.distinct
      have bound := bindArguments_origin (fun name position => ⟨environment.garbage activation name position, .garbage⟩) names
        pair
      have slot := declared.slots k other at_k
      rw [← same, bound, elementPlace_congr same.symm, elementPlace_zero, ← received k _ value]
      exact slot
    · rw [bindArguments_other _ fun argument mem same =>
        parameter ⟨argument.1, (List.of_mem_zip mem).1, same⟩]
      exact fresh
  · rw [bindArguments_position _ _ _ first]
    exact fresh

variable (loaded before lines outside limit environment state c frame rest method block name arguments destination) in
structure AtCall : Prop where
  running : c.status = .running
  here : lines[c.line]? = some (.call ⟨name, .method name⟩)
  behind : Placed lines (c.line + 1) (afterCall (g.inMethod before method) arguments destination)
  next : BlockAt (g.inMethod before method) lines method block (frame.index + 1)
    (c.line + 1 + (afterCall (g.inMethod before method) arguments destination).length)
  room : (c.processor.registers .rsp).toNat + stackRoom arguments.length +
    (generateStackAllocation (before method) method).1 = (c.processor.registers .rbp).toNat
  aligned : (c.processor.registers .rsp).toNat % 16 = 0
  below : loaded.bottom ≤ (c.processor.registers .rsp).toNat
  above : (c.processor.registers .rbp).toNat + 16 ≤ loaded.top
  words : ∀ k argument, arguments[k]? = some argument →
    passedWord c.processor k = state.operand g.llir environment frame argument
  locals : LocalsHold loaded before method c.processor.memory (c.processor.registers .rbp) frame.locals
  globals : GlobalsHold loaded c.processor.memory state.globals
  callers : CallersWait loaded before lines outside limit c.processor.memory (c.processor.registers .rbp) rest
  calls : SameCalls c.calls state.calls

variable (prepared : Prepared loaded before lines outside limit environment)
  (tracks : Tracks loaded before lines outside limit state c frame rest method block) (status : state.status = .running)
  (call : block.assignments[frame.index]? = some (.methodCall name arguments destination))
include prepared tracks call

omit prepared tracks call in
private theorem Prepared.locates (prepared : Prepared loaded before lines outside limit environment)
    (mem : method ∈ g.llir.methods) {field : LlirField} (known : field ∈ g.llir.fields ++ method.fields) :
    (g.atMethod before method).Locates method field := by
  obtain isGlobal | isLocal := List.mem_append.mp known
  · exact .inr ⟨global_offset (prepared.compilable.storable method mem) prepared.emits mem isGlobal, field, isGlobal, rfl,
      prepared.compilable.globals field isGlobal⟩
  · exact .inl ⟨field, isLocal, rfl⟩

/-- The code passes the arguments and comes to the call. -/
theorem reaches_call (room : loaded.bottom + stackNeed g.llir (frame :: rest) ≤ limit) :
    ∃ c', LeadsTo (codeStep lines loaded) (codeStep lines loaded c) c' ∧
      AtCall loaded before lines outside limit environment state c' frame rest method block name arguments destination := by
  obtain ⟨running, frames, mem, found, code, here, holds, callers, calls⟩ := tracks
  have compilable := prepared.compilable
  have storable := compilable.storable method mem
  have inside := (LlirMethod.block_mem code).1
  have listed := List.mem_of_getElem? call
  have few := storable.callable.calls block inside name arguments destination listed
  obtain ⟨names, writes, resolved⟩ := compilable.resolved method mem
  have known := (resolved.assignments block inside _ listed).1.2.1
  have body := holds.body
  have frame' : (c.processor.registers .rsp).toNat + (generateStackAllocation (before method) method).1 =
      (c.processor.registers .rbp).toNat := body.frame
  have aligned := body.aligned
  have above : (c.processor.registers .rbp).toNat + 16 ≤ loaded.top := body.above
  -- the stack below the frame
  have deep := callers.depth
  rw [stackNeed, List.map_cons, List.sum_cons, Frame.size_eq found (before method), Frame.outgoingRoom_eq found code call]
    at room
  rw [stackNeed] at deep
  have free : loaded.bottom + stackRoom arguments.length ≤ (c.processor.registers .rsp).toNat := by omega
  have even : stackRoom arguments.length % 16 = 0 := by
    rw [stackRoom]
    omega
  obtain ⟨s', run, top, base, words, memory⟩ := executeLines_beforeCall storable.callable.positive body
    (fun field listed' => by
      obtain known' | ⟨string, impossible⟩ := known _ listed'
      · exact prepared.locates mem known'
      · cases impossible)
    few free
  have globals := fun place => @memory_beforeCall (g.atMethod before method) loaded.toAddressSpace method c.processor s'
    arguments few free (by omega) run place
  obtain ⟨placed, next⟩ := here.assignment call
  rw [generateAssignmentLines, generateCall_eq _ _ few, List.append_assoc] at placed next
  have some_lines : beforeCall (g.inMethod before method) arguments ≠ [] :=
    List.append_ne_nil_of_right_ne_nil _ (List.cons_ne_nil _ _)
  have leads := leadsTo_someLines prepared.emits.encodable some_lines running placed.left run
  refine ⟨_, leads, running, placed.right.head, placed.right.tail, ?_, ?_, ?_, ?_, ?_, ?_, ?_, ?_, ?_, calls⟩
  · rw [List.length_append, List.length_append, ← Nat.add_assoc, ← Nat.add_assoc] at next
    exact next
  · show (s'.registers .rsp).toNat + _ + _ = (s'.registers .rbp).toNat
    rw [base, top]
    exact frame'
  · show (s'.registers .rsp).toNat % 16 = 0
    omega
  · show loaded.bottom ≤ (s'.registers .rsp).toNat
    omega
  · show (s'.registers .rbp).toNat + 16 ≤ loaded.top
    rw [base]
    exact above
  · intro k argument at_k
    refine (words k argument at_k).trans ?_
    exact holds.operand compilable prepared.emits mem prepared.strings rfl rfl (known _ (List.mem_of_getElem? at_k))
  · show LocalsHold loaded before method s'.memory (s'.registers .rbp) frame.locals
    rw [base]
    exact holds.locals.of_agree storable (by omega) fun place low high => memory place (by omega) (by omega)
  · exact holds.globals.of_agree globals
  · show CallersWait loaded before lines outside limit s'.memory (s'.registers .rbp) rest
    rw [base]
    exact callers.of_agree compilable prepared.small fun place low high => memory place (by omega) high

omit prepared tracks call

theorem AtCall.signals (at_call : AtCall loaded before lines outside limit environment state c frame rest method block name
    arguments destination) : SameCalls (c.calls ++ [(name, passedWord c.processor)])
      (state.calls ++ [(name, arguments.map (state.operand g.llir environment frame))]) := by
  refine List.rel_append at_call.calls (.cons ⟨rfl, fun k value at_k => ?_⟩ .nil)
  rw [List.getElem?_map] at at_k
  obtain ⟨argument, there, rfl⟩ := Option.map_eq_some_iff.mp at_k
  exact at_call.words k argument there

/-- The host answers an imported call as the environment does. -/
theorem follows_imported (prepared : Prepared loaded before lines outside limit environment)
    (status : state.status = .running) (mem : method ∈ g.llir.methods)
    (found : g.llir.method frame.method = some method) (code : method.block frame.block = some block)
    (call : block.assignments[frame.index]? = some (.methodCall name arguments destination))
    (missing : g.llir.method name = none)
    (at_call : AtCall loaded before lines outside limit environment state c frame rest method block name arguments
      destination) :
    ∃ c', LeadsTo (codeStep lines loaded) c c' ∧ Related loaded before lines outside limit
      (callMethod g.llir environment state frame rest name (arguments.map (state.operand g.llir environment frame))
        destination) c' := by
  have inside := (LlirMethod.block_mem code).1
  have listed := List.mem_of_getElem? call
  have absent := prepared.links.imported method mem block inside name arguments destination listed missing
  have calls := at_call.signals
  generalize values_eq : arguments.map (state.operand g.llir environment frame) = values at calls ⊢
  have responds : loaded.host.response (c.calls ++ [(name, passedWord c.processor)]) =
      environment.imported (state.calls ++ [(name, values)]) := by
    refine prepared.serves.responds _ _ calls ?_
    rw [List.getLast?_concat]
    intro same
    obtain ⟨rfl, rfl⟩ := Prod.mk.inj (Option.some.inj same)
    obtain rfl := List.map_eq_nil_iff.mp values_eq
    exact prepared.exits method mem block inside destination listed
  have step : codeStep lines loaded c = c.callFunction lines loaded name := codeStep_of at_call.running at_call.here
  rw [CodeState.callFunction] at step
  dsimp only at step
  rw [absent] at step
  dsimp only at step
  rw [if_pos at_call.aligned, responds] at step
  rw [callMethod]
  dsimp only
  rw [missing]
  dsimp only
  cases response : environment.imported (state.calls ++ [(name, values)]) with
  | returned value =>
    rw [response] at step
    dsimp only at step ⊢
    generalize hc' : { c with calls := c.calls ++ [(name, passedWord c.processor)] }.advance
      (loaded.host.resume loaded.bottom (c.calls ++ [(name, passedWord c.processor)]) c.processor value) = c' at step
    have running' : c'.status = .running := hc' ▸ at_call.running
    have calls' : SameCalls c'.calls (state.calls ++ [(name, values)]) := hc' ▸ calls
    have line' : c'.line = c.line + 1 := hc' ▸ rfl
    have top' : c'.processor.registers .rsp = c.processor.registers .rsp := hc' ▸ rfl
    have base' : c'.processor.registers .rbp = c.processor.registers .rbp := hc' ▸ rfl
    have result' : c'.processor.registers .rax = value := hc' ▸ rfl
    have room := at_call.room
    have kept (place : Word) (low : ¬ (loaded.bottom ≤ place.toNat ∧ place.toNat < (c.processor.registers .rsp).toNat)) :
        c'.processor.memory place = c.processor.memory place := hc' ▸ if_neg low
    obtain ⟨c'', resumes, related⟩ := @related_resume _ _ _ _ _ _ _ { state with calls := state.calls ++ [(name, values)] } c'
      _ _ _ _ prepared status running' mem found code _ _ _ call (line' ▸ at_call.behind) (line' ▸ at_call.next)
      (by rw [top', base']; exact room) (by rw [top']; exact at_call.aligned) (by rw [top']; exact at_call.below)
      (by rw [base']; exact at_call.above)
      (by
        rw [base']
        exact at_call.locals.of_agree (prepared.compilable.storable method mem) (by omega) fun place low high =>
          kept place (by omega))
      (at_call.globals.of_agree fun place apart => kept place fun inside => apart ⟨inside.1, by have := at_call.above; omega⟩)
      (by
        rw [base']
        exact at_call.callers.of_agree prepared.compilable prepared.small fun place low high => kept place (by omega))
      calls'
    rw [result'] at related
    have resumed : LeadsTo (codeStep lines loaded) c (codeStep lines loaded c) := leadsTo_step c
    rw [step] at resumed
    exact ⟨c'', resumed.trans resumes, related⟩
  | exited code =>
    rw [response] at step
    dsimp only [CodeState.stop] at step ⊢
    refine ⟨_, leadsTo_step c, .of_ended (by simp) ⟨?_, ?_, .inl ?_⟩⟩
    all_goals rw [step]
    · exact at_call.globals
    · exact calls
  | hung =>
    rw [response] at step
    dsimp only [CodeState.stop] at step ⊢
    refine ⟨_, leadsTo_step c, .of_ended (by simp) ⟨?_, ?_, .inl ?_⟩⟩
    all_goals rw [step]
    · exact at_call.globals
    · exact calls

theorem LlirMethod.WellFormed.first (wellFormed : method.WellFormed) : ∃ first others, method.blocks = first :: others := by
  obtain ⟨last, final, -⟩ := wellFormed.last
  cases blocks : method.blocks with
  | nil =>
    rw [blocks] at final
    cases final
  | cons first others => exact ⟨first, others, rfl⟩

/-- The callee receives what the caller has passed. -/
private theorem receivedWord_push {s s' : Processor} {address : Word} (pushed : s.push address = some s') {k : Nat}
    (low : 8 ≤ (s.registers .rsp).toNat) (fits : (s.registers .rsp).toNat + 8 * (k - 6) < 2 ^ 64) :
    receivedWord s' k = passedWord s k := by
  obtain ⟨top, -, memory, registers⟩ := push_frame pushed
  rw [receivedWord, passedWord]
  cases at_k : argumentRegisters[k]? with
  | some register => exact registers register (argumentRegister_other at_k).2.1
  | none =>
    dsimp only
    rw [top, BitVec.sub_add_cancel, memory]
    refine Function.update_of_ne (fun same => ?_) _ _
    have place := @toNat_outgoingPlace (s.registers .rsp) k fits
    have bounded := (s.registers .rsp).isLt
    rw [same, BitVec.toNat_sub, show (8 : Word).toNat = 8 from rfl] at place
    omega

/-- The stores of the globals' values in the machines. -/
theorem GlobalsHold.initialization {globals : Store} {s s' : Processor} (holds : GlobalsHold loaded s.memory globals)
    (run : executeLines loaded.symbols s (g.llir.fields.flatMap generateGlobalFieldInitialization) = some s') :
    GlobalsHold loaded s'.memory ((g.llir.fields.flatMap generateGlobalFieldInitialization).foldl executeLine globals) := by
  have stores : ∀ line ∈ g.llir.fields.flatMap generateGlobalFieldInitialization, ∃ field ∈ g.llir.fields,
      ∃ position : Nat, position < field.valueCount ∧ ∃ value,
        line = .instruction .movq [.immediate value, .relative field.symbol (8 * position)] := by
    intro line mem
    obtain ⟨field, isGlobal, mem⟩ := List.mem_flatMap.mp mem
    obtain ⟨position, small, mem⟩ := List.mem_flatMap.mp mem
    split at mem
    · cases mem
    · have inside := List.mem_range.mp small
      exact ⟨field, isGlobal, position, by omega, _, List.mem_singleton.mp mem⟩
  generalize g.llir.fields.flatMap generateGlobalFieldInitialization = initializers at run stores ⊢
  induction initializers generalizing s globals with
  | nil =>
    cases run
    exact holds
  | cons line rest ih =>
    obtain ⟨field, isGlobal, position, inside, value, rfl⟩ := stores line List.mem_cons_self
    have located : s.address loaded.symbols (.relative field.symbol (8 * position)) =
        some (globalPlace loaded.symbols field position) := rfl
    rw [executeLines_cons, executeAssembly_storeImmediate located (globalPlace_aligned isGlobal)] at run
    rw [List.foldl_cons, executeLine_store]
    exact ih (holds.set isGlobal inside) run fun other mem => stores other (List.mem_cons_of_mem _ mem)

/-- From its label a method comes through the declaration to its first block. -/
theorem enters_method (prepared : Prepared loaded before lines outside limit environment) (status : state.status = .running)
    (running : c.status = .running) (found : g.llir.method callee.identifier = some callee)
    (start : labelLine lines callee.identifier = some c.line)
    (entry : AtEntry (g.atMethod before callee) loaded.toAddressSpace callee c.processor)
    (globals : GlobalsHold loaded c.processor.memory state.globals) {values : List Word}
    (arity : callee.arguments.length = values.length)
    (received : ∀ k value, values[k]? = some value → receivedWord c.processor k = value) {callers : List Frame}
    (wait : ∀ (memory : Word → Word) (base : Word), base + 8 = c.processor.registers .rsp →
      memory base = c.processor.registers .rbp →
      (∀ place : Word, (c.processor.registers .rsp).toNat ≤ place.toNat → place.toNat < loaded.top →
        memory place = c.processor.memory place) →
      CallersWait loaded before lines outside limit memory base callers)
    (calls : SameCalls c.calls state.calls) :
    ∃ c', LeadsTo (codeStep lines loaded) c c' ∧ ∀ (environment' : Environment) (activation : Nat),
      environment'.garbage activation = frameWordsAt loaded before callee c'.processor →
      Related loaded before lines outside limit { state with
        frames := enterMethod environment' activation callee values :: callers
        globals := (generateInitialization g.llir callee).foldl executeLine state.globals } c' := by
  have known := (Llir.method_mem found).1
  have callable := (prepared.compilable.storable callee known).callable
  obtain ⟨line, label, here, placed⟩ := prepared.emits.methodAt known
  obtain rfl : line = c.line := Option.some.inj (label.symm.trans start)
  obtain ⟨first, others, blocks⟩ := (prepared.compilable.wellFormed callee known).first
  obtain ⟨s, declaration, made⟩ := executeLines_declaration callable entry
  obtain ⟨s', initialization, apart⟩ := memory_declaration callable entry declaration
  have globals' : GlobalsHold loaded s.memory ((generateInitialization g.llir callee).foldl executeLine state.globals) := by
    have before' : GlobalsHold loaded s'.memory state.globals := globals.of_agree apart
    have run : executeLines loaded.symbols s' (generateInitialization g.llir callee) = some s := initialization
    rw [generateInitialization] at run ⊢
    split
    · rename_i isMain
      rw [if_pos isMain] at run
      exact before'.initialization run
    · rename_i notMain
      rw [if_neg notMain] at run
      obtain rfl : s' = s := Option.some.inj run
      exact before'
  -- the code up to the first block
  have step := @codeStep_label _ loaded lines c running _ here
  have leads := @leadsTo_lines _ _ loaded (c.moveTo (c.line + 1) c.processor) prepared.emits.encodable _ s running
    placed.left declaration
  have body := placed.right
  rw [blocks] at body
  obtain ⟨label', here'⟩ := @blockAt_of_label _ _ callee first _ [] others blocks body
  generalize hc' : (c.moveTo (c.line + 1) c.processor).moveTo ((c.moveTo (c.line + 1) c.processor).line +
    (methodDeclaration (g.atMethod before callee) callee).length) s = c' at leads
  have running' : c'.status = .running := hc' ▸ running
  have processor' : c'.processor = s := hc' ▸ rfl
  have calls' : c'.calls = c.calls := hc' ▸ rfl
  have line' : c'.line = c.line + 1 + (methodDeclaration (g.atMethod before callee) callee).length := hc' ▸ rfl
  rw [← line'] at label' here'
  have step' := @codeStep_label _ loaded lines c' running' _ label'
  have enters : LeadsTo (codeStep lines loaded) c (c'.moveTo (c'.line + 1) c'.processor) := by
    have arrived := leads.trans (leadsTo_step c')
    rw [step', ← step] at arrived
    exact LeadsTo.cons arrived
  refine ⟨_, enters, fun environment' activation garbage => ?_⟩
  have garbage' : environment'.garbage activation = frameWordsAt loaded before callee s := processor' ▸ garbage
  refine @Related.of_running _ _ _ _ _ _ _ _ callers callee first status _ ⟨running', rfl, known, found, ?_, here',
    ⟨?_, ?_, ?_⟩, ?_, ?_⟩
  · show callee.block ((callee.blocks.head?.map LlirBlock.id).getD 0) = some first
    rw [LlirMethod.block, blocks]
    simp
  · show InBody _ _ _ c'.processor
    rw [processor']
    exact made.body
  · show LocalsHold loaded before callee c'.processor.memory (c'.processor.registers .rbp) _
    rw [processor']
    exact made.localsHold callable arity received garbage'
  · show GlobalsHold loaded c'.processor.memory _
    rw [processor']
    exact globals'
  · show CallersWait loaded before lines outside limit c'.processor.memory (c'.processor.registers .rbp) callers
    rw [processor']
    exact wait _ _ (by rw [made.base, BitVec.sub_add_cancel]) made.saved made.above
  · show SameCalls c'.calls state.calls
    rw [calls']
    exact calls

/-- A call of a method of the program pushes the return address and goes to the label. -/
theorem follows_method (prepared : Prepared loaded before lines outside limit environment)
    (status : state.status = .running) (mem : method ∈ g.llir.methods)
    (found : g.llir.method frame.method = some method) (code : method.block frame.block = some block)
    (call : block.assignments[frame.index]? = some (.methodCall name arguments destination))
    (declared : g.llir.method name = some callee) (arity : callee.arguments.length = arguments.length)
    (room : loaded.bottom + (16 + (generateStackAllocation (before callee) callee).1) + stackNeed g.llir (frame :: rest) ≤ limit)
    (at_call : AtCall loaded before lines outside limit environment state c frame rest method block name arguments
      destination) :
    ∃ c', LeadsTo (codeStep lines loaded) c c' ∧ ∀ environment' : Environment,
      environment'.garbage state.activations = frameWordsAt loaded before callee c'.processor →
      Related loaded before lines outside limit { state with
        calls := state.calls ++ [(name, arguments.map (state.operand g.llir environment frame))]
        frames := enterMethod environment' state.activations callee
          (arguments.map (state.operand g.llir environment frame)) :: frame :: rest
        activations := state.activations + 1
        globals := (generateInitialization g.llir callee).foldl executeLine state.globals } c' := by
  have compilable := prepared.compilable
  obtain ⟨known, rfl⟩ := Llir.method_mem declared
  obtain ⟨line, start, -, -⟩ := prepared.emits.methodAt known
  have calls := at_call.signals
  obtain ⟨running, here, behind, next, rooms, aligned, below, above, words, locals, globals, callers, -⟩ := at_call
  -- the room for the callee
  have deep := callers.depth
  rw [stackNeed, List.map_cons, List.sum_cons, Frame.size_eq found (before method), Frame.outgoingRoom_eq found code call]
    at room
  rw [stackNeed] at deep
  have bounded := (c.processor.registers .rsp).isLt
  have pushes : (c.processor.registers .rsp - 8).toNat = (c.processor.registers .rsp).toNat - 8 := by
    rw [BitVec.toNat_sub, show (8 : Word).toNat = 8 from rfl]
    omega
  have padded : 8 * (callee.arguments.length - 6) ≤ stackRoom arguments.length := by
    rw [stackRoom, arity]
    omega
  -- the return address
  obtain ⟨s, pushed⟩ : ∃ s, c.processor.push (loaded.behind c.line) = some s := by
    refine ⟨_, store_of ?_ _⟩
    show (c.processor.registers .rsp - 8).toNat % 8 = 0
    omega
  obtain ⟨top, base, memory, -⟩ := push_frame pushed
  have top' : (s.registers .rsp).toNat + 8 = (c.processor.registers .rsp).toNat := by
    rw [top, pushes]
    omega
  have others (place : Word) (other : place.toNat ≠ (c.processor.registers .rsp).toNat - 8) :
      s.memory place = c.processor.memory place := by
    rw [memory]
    refine Function.update_of_ne (fun same => other ?_) _ _
    rw [same, pushes]
  have step : codeStep lines loaded c =
      { c with calls := c.calls ++ [(callee.identifier, passedWord c.processor)], line := line, processor := s } := by
    rw [codeStep_of running here, CodeState.executeLine, CodeState.callFunction]
    dsimp only
    rw [start]
    dsimp only
    rw [pushed]
  generalize hc' : { c with calls := c.calls ++ [(callee.identifier, passedWord c.processor)], line := line, processor := s } =
    c' at step
  have processor' : c'.processor = s := hc' ▸ rfl
  have entry : AtEntry (g.atMethod before callee) loaded.toAddressSpace callee c'.processor := by
    rw [processor']
    refine ⟨by omega, ?_, by omega⟩
    show loaded.bottom + 8 + (generateStackAllocation (before callee) callee).1 ≤ _
    omega
  obtain ⟨c'', enters, related⟩ := @enters_method _ _ _ _ _ _ _ { state with
    calls := state.calls ++ [(callee.identifier, arguments.map (state.operand g.llir environment frame))]
    activations := state.activations + 1 } c' callee prepared status (hc' ▸ running) declared (hc' ▸ start) entry
    (by
      rw [processor']
      refine globals.of_agree fun place far => others place fun same => far ?_
      omega)
    (arguments.map (state.operand g.llir environment frame)) (by rw [List.length_map, arity])
    (by
      intro k value at_k
      rw [List.getElem?_map] at at_k
      obtain ⟨argument, there, rfl⟩ := Option.map_eq_some_iff.mp at_k
      have inside : k < arguments.length := (List.getElem?_eq_some_iff.mp there).1
      rw [processor', receivedWord_push pushed (by omega) (by rw [stackRoom] at rooms; omega)]
      exact words k argument there)
    (frame :: rest)
    (by
      intro memory' base' address saved above'
      rw [processor'] at address saved above'
      have address' : base'.toNat + 8 = (s.registers .rsp).toNat := by
        rw [eq_sub_of_add_eq address, BitVec.toNat_sub, show (8 : Word).toNat = 8 from rfl]
        omega
      have kept (place : Word) (low : (c.processor.registers .rsp).toNat ≤ place.toNat) (high : place.toNat < loaded.top) :
          memory' place = c.processor.memory place := by
        rw [above' place (by omega) high, others place (by omega)]
      refine ⟨c.processor.registers .rbp, .intro mem found code call here behind next ?_ ?_ (by omega) above ?_, ?_⟩
      · rw [saved, base]
      · rw [address, above' _ le_rfl (by omega), memory, top]
        exact Function.update_self ..
      · exact locals.of_agree (compilable.storable method mem) (by omega) fun place low high =>
          kept place (by omega) (by omega)
      · exact callers.of_agree compilable prepared.small fun place low high => kept place (by omega) high)
    (hc' ▸ calls)
  refine ⟨c'', LeadsTo.cons (step ▸ enters), fun environment' garbage => ?_⟩
  exact related environment' state.activations garbage

end

end Roast
