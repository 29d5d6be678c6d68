import Roast.Assembly.CodeCalls
import Roast.Systems.Oracles

/-! A run of the machine for every run of the emitted code. What the machine asks its environment for is what the code finds
in memory. -/
namespace Roast
open Processor Systems

inductive Question where
  | frame (activation : Nat)
  | stray (count : Nat)
  deriving DecidableEq

abbrev Answer := (String → Nat → Word) × Word

def Environment.answering (environment : Environment) (answers : Question → Answer) : Environment :=
  { environment with
    garbage := fun activation => (answers (.frame activation)).1
    stray := fun count => (answers (.stray count)).2 }

structure StepsAlike (answers answers' : Question → Answer) (s next next' : MachineState) : Prop where
  activations : next'.activations = next.activations
  strays : next'.strays = next.strays
  enters : s.activations ≤ next.activations
  strayed : s.strays ≤ next.strays
  one : next.activations = s.activations ∨ next.strays = s.strays
  same : (next.activations ≠ s.activations → answers (.frame s.activations) = answers' (.frame s.activations)) →
    (next.strays ≠ s.strays → answers (.stray s.strays) = answers' (.stray s.strays)) → next = next'

section
variable {llir : Llir} {environment : Environment} {answers answers' : Question → Answer} {s next next' : MachineState}
  {frame : Frame} {rest : List Frame}

theorem StepsAlike.of_eq (activations : next.activations = s.activations) (strays : next.strays = s.strays) :
    StepsAlike answers answers' s next next := ⟨rfl, rfl, activations.ge, strays.ge, .inl activations, fun _ _ => rfl⟩

private theorem operand_answering (operand : LlirOperand) :
    s.operand llir (environment.answering answers) frame operand = s.operand llir environment frame operand := by
  cases operand <;> rfl

private theorem store_strays (field : LlirField) (position : Nat) (value : Word) :
    (s.store llir frame rest field position value).strays = s.strays := by
  unfold MachineState.store
  split <;> rfl

theorem StepsAlike.store (field : LlirField) (position : Nat) (value : Word) :
    StepsAlike answers answers' s (s.store llir frame rest field position value)
      (s.store llir frame rest field position value) :=
  .of_eq (store_activations ..) (store_strays ..)

private theorem stepTerminal_alike (terminal : LlirTerminal) :
    StepsAlike answers answers' s (stepTerminal llir (environment.answering answers) s frame rest terminal)
      (stepTerminal llir (environment.answering answers') s frame rest terminal) := by
  cases terminal with
  | unknown => exact .of_eq rfl rfl
  | jump block => exact .of_eq rfl rfl
  | shitYourself status => exact .of_eq rfl rfl
  | branch branch =>
    simp only [stepTerminal, operand_answering]
    exact .of_eq rfl rfl
  | llirReturn source =>
    simp only [stepTerminal, operand_answering]
    cases rest with
    | nil => exact .of_eq rfl rfl
    | cons caller others =>
      rw [returnValue]
      cases caller.assignment llir with
      | some assignment => exact .store ..
      | none => exact .of_eq rfl rfl

private theorem callMethod_alike (name : String) (values : List Word) (destination : LlirField) :
    StepsAlike answers answers' s (callMethod llir (environment.answering answers) s frame rest name values destination)
      (callMethod llir (environment.answering answers') s frame rest name values destination) := by
  unfold callMethod
  dsimp only
  cases llir.method name with
  | some callee =>
    dsimp only
    by_cases arity : callee.arguments.length = values.length
    · rw [if_pos arity, if_pos arity]
      refine ⟨rfl, rfl, Nat.le_succ _, le_rfl, .inr rfl, fun frames _ => ?_⟩
      have garbage := congrArg Prod.fst (frames (Nat.succ_ne_self _))
      have same : enterMethod (environment.answering answers) s.activations callee values =
          enterMethod (environment.answering answers') s.activations callee values := by
        simp only [enterMethod, Environment.answering, garbage]
      rw [same]
    · rw [if_neg arity, if_neg arity]
      exact .of_eq rfl rfl
  | none =>
    dsimp only
    have imported : (environment.answering answers).imported = (environment.answering answers').imported := rfl
    rw [imported]
    cases (environment.answering answers').imported (s.calls ++ [(name, values)]) with
    | returned value =>
      exact .of_eq (store_activations ..) (store_strays ..)
    | exited status => exact .of_eq rfl rfl
    | hung => exact .of_eq rfl rfl

private theorem stepAssignment_alike (assignment : LlirAssignment) :
    StepsAlike answers answers' s (stepAssignment llir (environment.answering answers) s frame rest assignment)
      (stepAssignment llir (environment.answering answers') s frame rest assignment) := by
  cases assignment with
  | unary type source destination =>
    simp only [stepAssignment, operand_answering]
    exact .store ..
  | binary type left right destination =>
    simp only [stepAssignment, operand_answering]
    split
    · exact .store ..
    · exact .of_eq rfl rfl
  | arrayUpdate index value destination =>
    simp only [stepAssignment, operand_answering]
    split
    · exact .store ..
    · exact .of_eq rfl rfl
  | arrayAccess index array destination guarded =>
    simp only [stepAssignment, operand_answering]
    split
    · exact .store ..
    · refine ⟨?_, ?_, ?_, ?_, .inl (store_activations ..), fun _ strays => ?_⟩
      · rw [store_activations, store_activations]
      · rw [store_strays, store_strays]
      · rw [store_activations]
      · rw [store_strays]
        exact Nat.le_succ _
      · have word := congrArg Prod.snd (strays (by
          rw [store_strays]
          exact Nat.succ_ne_self _))
        show MachineState.store _ _ _ _ _ _ (answers (.stray s.strays)).2 =
          MachineState.store _ _ _ _ _ _ (answers' (.stray s.strays)).2
        rw [word]
  | methodCall name arguments destination =>
    have same : s.operand llir (environment.answering answers) frame = s.operand llir (environment.answering answers') frame :=
      funext fun operand => by rw [operand_answering, operand_answering]
    rw [stepAssignment, stepAssignment, same]
    exact callMethod_alike ..

private theorem step_alike (s : MachineState) :
    StepsAlike answers answers' s (step llir (environment.answering answers) s)
    (step llir (environment.answering answers') s) := by
  unfold step
  by_cases running : s.status = .running
  · rw [if_pos running, if_pos running]
    cases s.frames with
    | nil => exact .of_eq rfl rfl
    | cons frame rest =>
      dsimp only
      cases (llir.method frame.method).bind fun method => method.block frame.block with
      | none => exact .of_eq rfl rfl
      | some block =>
        dsimp only
        unfold stepBlock
        cases block.assignments[frame.index]? with
        | none => exact stepTerminal_alike ..
        | some assignment => exact stepAssignment_alike ..
  · rw [if_neg running, if_neg running]
    exact .of_eq rfl rfl

private theorem generatedStep_alike (s : MachineState) :
    StepsAlike answers answers' s (generatedStep llir (environment.answering answers) s)
      (generatedStep llir (environment.answering answers') s) := by
  have alike := @step_alike llir environment answers answers' s
  rw [generatedStep, generatedStep, alike.activations]
  by_cases quiet : (step llir (environment.answering answers) s).activations = s.activations
  · rw [if_pos quiet, if_pos quiet]
    exact alike
  · rw [if_neg quiet, if_neg quiet]
    refine ⟨alike.activations, alike.strays, alike.enters, alike.strayed, alike.one, fun frames strays => ?_⟩
    rw [alike.same frames strays]

end

section
variable (llir : Llir) (environment : Environment)

def MachineState.question (s : MachineState) : Option Question :=
  let next := generatedStep llir (environment.answering fun _ => default) s
  if next.activations ≠ s.activations then some (.frame s.activations)
  else if next.strays ≠ s.strays then some (.stray s.strays) else none

def MachineState.past (s : MachineState) : Set Question
  | .frame activation => activation < s.activations
  | .stray count => count < s.strays

variable {llir environment}

/-- Whether there is a question does not depend on the answers. -/
private theorem question_eq (answers : Question → Answer) (s : MachineState) : s.question llir environment =
    if (generatedStep llir (environment.answering answers) s).activations ≠ s.activations then some (.frame s.activations)
    else if (generatedStep llir (environment.answering answers) s).strays ≠ s.strays then some (.stray s.strays)
    else none := by
  have alike := @generatedStep_alike llir environment answers (fun _ => default) s
  rw [← alike.activations, ← alike.strays]
  rfl

private theorem machine_questions : Questions (fun answer => generatedStep llir (environment.answering fun _ => answer))
    (MachineState.question llir environment) MachineState.past := by
  constructor
  · intro s silent a b
    have alike := @generatedStep_alike llir environment (fun _ => a) (fun _ => b) s
    rw [question_eq fun _ => a] at silent
    split at silent
    · cases silent
    · rename_i quiet
      split at silent
      · cases silent
      · rename_i quiet'
        exact alike.same (fun changed => absurd changed quiet) fun changed => absurd changed quiet'
  · intro s k asks
    rw [question_eq fun _ => default] at asks
    split at asks
    · obtain rfl := Option.some.inj asks
      exact Nat.lt_irrefl s.activations
    · split at asks
      · obtain rfl := Option.some.inj asks
        exact Nat.lt_irrefl s.strays
      · cases asks
  · intro s k asks a
    have alike := @generatedStep_alike llir environment (fun _ => a) (fun _ => a) s
    rw [question_eq fun _ => a] at asks
    split at asks
    · rename_i changed
      obtain rfl := Option.some.inj asks
      exact Nat.lt_of_le_of_ne alike.enters (Ne.symm changed)
    · split at asks
      · rename_i changed
        obtain rfl := Option.some.inj asks
        exact Nat.lt_of_le_of_ne alike.strayed (Ne.symm changed)
      · cases asks
  · intro s a k known
    have alike := @generatedStep_alike llir environment (fun _ => a) (fun _ => a) s
    cases k with
    | frame activation => exact Nat.lt_of_lt_of_le known alike.enters
    | stray count => exact Nat.lt_of_lt_of_le known alike.strayed

/-- The step with an oracle is that of the machine with its answers. -/
private theorem answeredStep_eq (answers : Question → Answer) (s : MachineState) :
    answeredStep (fun answer => generatedStep llir (environment.answering fun _ => answer))
      (MachineState.question llir environment) answers s = generatedStep llir (environment.answering answers) s := by
  rw [answeredStep]
  have alike := @generatedStep_alike llir environment
    (fun _ => (s.question llir environment).elim default answers) answers s
  refine alike.same (fun changed => ?_) fun changed => ?_
  · rw [question_eq fun _ => (s.question llir environment).elim default answers, if_pos changed]
    rfl
  · have quiet := alike.one.resolve_right changed
    rw [question_eq fun _ => (s.question llir environment).elim default answers, if_neg (not_not.mpr quiet), if_pos changed]
    rfl

end

/-- A state that the stack has room for, and that the machine has not been stuck in. -/
structure MachineState.Fits (llir : Llir) (bottom limit : Nat) (s : MachineState) : Prop where
  room : bottom + stackNeed llir s.frames ≤ limit
  defined : s.status ≠ .stuck

section
variable {g : CodeGenerator} {loaded : Loaded g.llir.fields} {before : LlirMethod → Offsets} {lines : List AssemblyLine}
  {outside : Word} {limit : Nat} {environment : Environment} {state : MachineState} {c : CodeState} {frame : Frame}
  {rest : List Frame} {method callee : LlirMethod} {block : LlirBlock} {name : String} {arguments : List LlirOperand}
  {destination : LlirField}

private theorem Prepared.answering (prepared : Prepared loaded before lines outside limit environment)
    (answers : Question → Answer) : Prepared loaded before lines outside limit (environment.answering answers) :=
  ⟨prepared.compilable, prepared.emits, prepared.links, prepared.exits, prepared.strings,
    prepared.serves, prepared.small⟩

theorem Tracks.step_eq (tracks : Tracks loaded before lines outside limit state c frame rest method block)
    (status : state.status = .running) (environment : Environment) :
    step g.llir environment state = stepBlock g.llir environment state frame rest block := by
  rw [step, if_pos status, tracks.frames]
  dsimp only
  rw [tracks.found, Option.bind_some, tracks.code]

private theorem callMethod_activations {llir : Llir} {s : MachineState} (missing : llir.method name = none)
    (values : List Word) :
    (callMethod llir environment s frame rest name values destination).activations = s.activations := by
  rw [callMethod]
  dsimp only
  rw [missing]
  dsimp only
  cases environment.imported (s.calls ++ [(name, values)]) with
  | returned value => exact store_activations ..
  | exited status => rfl
  | hung => rfl

/-- A method of the program is entered with its globals initialized, if it is `main`. -/
private theorem generatedStep_enters {llir : Llir} {s : MachineState} {values : List Word}
    (declared : llir.method name = some callee)
    (arity : callee.arguments.length = values.length)
    (next : step llir environment s = callMethod llir environment s frame rest name values destination) :
    generatedStep llir environment s = { s with
      calls := s.calls ++ [(name, values)]
      frames := enterMethod environment s.activations callee values :: frame :: rest
      activations := s.activations + 1
      globals := (generateInitialization llir callee).foldl executeLine s.globals } := by
  have found : llir.method callee.identifier = some callee := (Llir.method_mem declared).2.symm ▸ declared
  rw [callMethod] at next
  dsimp only at next
  rw [declared] at next
  dsimp only at next
  rw [if_pos arity] at next
  rw [generatedStep, next, if_neg (Nat.succ_ne_self _), MachineState.executePrologue, MachineState.initialization]
  simp only [List.head?_cons, Option.bind_some, enterMethod, found]

private theorem stepTerminal_activations {llir : Llir} {s : MachineState} (terminal : LlirTerminal) :
    (stepTerminal llir environment s frame rest terminal).activations = s.activations := by
  cases terminal with
  | llirReturn source =>
    rw [stepTerminal]
    cases rest with
    | nil => rfl
    | cons caller others =>
      rw [returnValue]
      cases caller.assignment llir with
      | some assignment => exact store_activations ..
      | none => rfl
  | _ => rfl

private theorem stepAssignment_activations {llir : Llir} {s : MachineState} {assignment : LlirAssignment}
    (noCall : ∀ name arguments destination, assignment ≠ .methodCall name arguments destination) :
    (stepAssignment llir environment s frame rest assignment).activations = s.activations := by
  cases assignment with
  | unary type source destination => exact store_activations ..
  | binary type left right destination =>
    rw [stepAssignment]
    split
    · exact store_activations ..
    · rfl
  | arrayUpdate index value destination =>
    rw [stepAssignment]
    split
    · exact store_activations ..
    · rfl
  | arrayAccess index array destination guarded =>
    rw [stepAssignment]
    split
    · exact store_activations ..
    · exact store_activations ..
  | methodCall name arguments destination => exact absurd rfl (noCall name arguments destination)

private theorem generatedStep_quiet {llir : Llir} {s : MachineState}
    (quiet : (step llir environment s).activations = s.activations) :
    generatedStep llir environment s = step llir environment s := if_pos quiet

variable (prepared : Prepared loaded before lines outside limit environment)
  (tracks : Tracks loaded before lines outside limit state c frame rest method block) (status : state.status = .running)
include prepared tracks status

/-- The code follows every terminal. -/
private theorem follows_terminal (last : block.assignments[frame.index]? = none)
    (defined : (stepTerminal g.llir environment state frame rest block.terminal).status ≠ .stuck) :
    ∃ c', LeadsTo (codeStep lines loaded) (codeStep lines loaded c) c' ∧ Related loaded before lines outside limit
      (stepTerminal g.llir environment state frame rest block.terminal) c' := by
  cases terminal : block.terminal with
  | unknown =>
    rw [terminal] at defined
    exact absurd rfl defined
  | jump target => exact terminal ▸ follows_jump prepared tracks status terminal last
  | branch branch => exact terminal ▸ follows_branch prepared tracks status terminal last
  | llirReturn source => exact terminal ▸ follows_return prepared tracks status terminal last
  | shitYourself value => exact terminal ▸ follows_exit prepared tracks terminal last

/-- A call of a method of the program, or of one outside. -/
private theorem follows_call (call : block.assignments[frame.index]? = some (.methodCall name arguments destination))
    (fits : state.Fits g.llir loaded.bottom limit) :
    ∃ answer : Answer, (generatedStep g.llir (environment.answering fun _ => answer) state).Fits g.llir loaded.bottom limit →
      ∃ c', LeadsTo (codeStep lines loaded) (codeStep lines loaded c) c' ∧ Related loaded before lines outside limit
        (generatedStep g.llir (environment.answering fun _ => answer) state) c' := by
  have room := fits.room
  rw [tracks.frames] at room
  have next (answers : Question → Answer) : step g.llir (environment.answering answers) state =
      callMethod g.llir (environment.answering answers) state frame rest name
        (arguments.map (state.operand g.llir (environment.answering answers) frame)) destination := by
    rw [tracks.step_eq status, stepBlock, call]
    rfl
  cases declared : g.llir.method name with
  | none =>
    obtain ⟨c', leads, at_call⟩ := reaches_call (prepared.answering fun _ => default) tracks call room
    obtain ⟨c'', follows, related⟩ := follows_imported (prepared.answering fun _ => default) status tracks.mem tracks.found
      tracks.code call declared at_call
    refine ⟨default, fun _ => ⟨c'', leads.trans follows, ?_⟩⟩
    rw [generatedStep_quiet (by rw [next, callMethod_activations declared]), next]
    exact related
  | some callee =>
    obtain ⟨c', leads, at_call⟩ := reaches_call prepared tracks call room
    have values (answers : Question → Answer) : arguments.map (state.operand g.llir (environment.answering answers) frame) =
        arguments.map (state.operand g.llir environment frame) :=
      List.map_congr_left fun operand _ => operand_answering operand
    have enters (answers : Question → Answer) (arity : callee.arguments.length = arguments.length) :=
      generatedStep_enters declared (by rw [List.length_map, arity]) (next answers)
    by_cases ready : callee.arguments.length = arguments.length ∧
        loaded.bottom + (16 + (generateStackAllocation (before callee) callee).1) + stackNeed g.llir (frame :: rest) ≤ limit
    · obtain ⟨c'', follows, related⟩ := follows_method prepared status tracks.mem tracks.found tracks.code call declared
        ready.1 ready.2 at_call
      refine ⟨(frameWordsAt loaded before callee c''.processor, 0), fun _ => ⟨c'', leads.trans follows, ?_⟩⟩
      rw [enters _ ready.1, values]
      exact related _ rfl
    · refine ⟨default, fun fits' => absurd ?_ ready⟩
      have arity : callee.arguments.length = arguments.length := by
        by_contra differ
        have stuck : step g.llir (environment.answering fun _ => default) state = { state with
            calls := state.calls ++ [(name, arguments.map (state.operand g.llir environment frame))]
            status := .stuck } := by
          rw [next, values, callMethod]
          dsimp only
          rw [declared]
          dsimp only
          rw [if_neg (by rwa [List.length_map])]
        rw [generatedStep_quiet (by rw [stuck]), stuck] at fits'
        exact fits'.defined rfl
      refine ⟨arity, ?_⟩
      have deep := fits'.room
      obtain ⟨-, rfl⟩ := Llir.method_mem declared
      rw [enters _ arity, stackNeed, List.map_cons, List.sum_cons, Frame.size_eq declared (before callee)] at deep
      rw [stackNeed]
      omega

/-- The code follows a step for some answer to its question. -/
private theorem follows_step_running (fits : state.Fits g.llir loaded.bottom limit) :
    ∃ answer : Answer, (generatedStep g.llir (environment.answering fun _ => answer) state).Fits g.llir loaded.bottom limit →
      ∃ c', LeadsTo (codeStep lines loaded) (codeStep lines loaded c) c' ∧ Related loaded before lines outside limit
        (generatedStep g.llir (environment.answering fun _ => answer) state) c' := by
  cases next : block.assignments[frame.index]? with
  | none =>
    refine ⟨default, fun fits' => ?_⟩
    have ends : step g.llir (environment.answering fun _ => default) state =
        stepTerminal g.llir (environment.answering fun _ => default) state frame rest block.terminal := by
      rw [tracks.step_eq status, stepBlock, next]
    have quiet : (step g.llir (environment.answering fun _ => default) state).activations = state.activations := by
      rw [ends, stepTerminal_activations]
    rw [generatedStep_quiet quiet, ends] at fits' ⊢
    exact follows_terminal (prepared.answering _) tracks status next fits'.defined
  | some assignment =>
    by_cases call : ∃ name arguments destination, assignment = .methodCall name arguments destination
    · obtain ⟨name, arguments, destination, rfl⟩ := call
      exact follows_call prepared tracks status next fits
    · have noCall (name : String) (arguments : List LlirOperand) (destination : LlirField) :
          assignment ≠ .methodCall name arguments destination := fun same => call ⟨name, arguments, destination, same⟩
      refine ⟨(default, accessedWord loaded before method c.processor assignment), fun fits' => ?_⟩
      generalize answers : (fun _ : Question =>
        ((default, accessedWord loaded before method c.processor assignment) : Answer)) = given at fits' ⊢
      have stores : step g.llir (environment.answering given) state =
          stepAssignment g.llir (environment.answering given) state frame rest assignment := by
        rw [tracks.step_eq status, stepBlock, next]
      have quiet : (step g.llir (environment.answering given) state).activations = state.activations := by
        rw [stores, stepAssignment_activations noCall]
      rw [generatedStep_quiet quiet, stores] at fits' ⊢
      exact follows_assignment (prepared.answering _) tracks status next noCall (answers ▸ rfl) fits'.defined

omit tracks status in
/-- The code follows every step, and stays stopped behind a stopped one. -/
private theorem follows_step (related : Related loaded before lines outside limit state c)
    (fits : state.Fits g.llir loaded.bottom limit) :
    ∃ answer : Answer, (generatedStep g.llir (environment.answering fun _ => answer) state).Fits g.llir loaded.bottom limit →
      ∃ c', LeadsTo (codeStep lines loaded) (codeStep lines loaded c) c' ∧ Related loaded before lines outside limit
        (generatedStep g.llir (environment.answering fun _ => answer) state) c' := by
  by_cases status : state.status = .running
  · obtain ⟨frame, rest, method, block, tracks⟩ := related.tracks status
    exact follows_step_running prepared tracks status fits
  · refine ⟨default, fun _ => ⟨c, ?_, ?_⟩⟩
    · rw [codeStep_stopped (by rw [related.observes.status]; exact status)]
      exact .refl c
    · have stopped := @step_stopped g.llir (environment.answering fun _ => default) _ status
      rw [generatedStep_quiet (by rw [stopped]), stopped]
      exact related

omit tracks status in
/-- The emitted code and the machine stay together in whole runs. -/
private theorem follows_run (related : Related loaded before lines outside limit state c) :
    ∃ answers : Question → Answer, ∀ n,
      (∀ i ≤ n, ((generatedStep g.llir (environment.answering answers))^[i] state).Fits g.llir loaded.bottom limit) →
      ∃ m, n ≤ m ∧ Related loaded before lines outside limit
        ((generatedStep g.llir (environment.answering answers))^[n] state) ((codeStep lines loaded)^[m] c) := by
  have questions := @machine_questions g.llir environment
  obtain ⟨answers, runs⟩ := @Questions.exists_oracle _ _ _ _ _ _ _ _ questions (codeStep lines loaded)
    (fun state => state.Fits g.llir loaded.bottom limit) (Related loaded before lines outside limit)
    (fun state c fits related => follows_step prepared related fits) _ _ related
  have steps : answeredStep (fun answer => generatedStep g.llir (environment.answering fun _ => answer))
      (MachineState.question g.llir environment) answers = generatedStep g.llir (environment.answering answers) :=
    funext fun s => answeredStep_eq answers s
  rw [steps] at runs
  exact ⟨answers, runs⟩

end

/-- The code at the label of `main`, called from outside, with zeros in the globals. -/
structure CodeState.Starts {fields : List LlirField} (loaded : Loaded fields) (lines : List AssemblyLine) (outside : Word)
    (limit : Nat) (c : CodeState) : Prop where
  running : c.status = .running
  start : labelLine lines "main" = some c.line
  calls : c.calls = []
  aligned : (c.processor.registers .rsp).toNat % 16 = 8
  limit : (c.processor.registers .rsp).toNat + 8 = limit
  address : c.processor.memory (c.processor.registers .rsp) = outside
  zeros : ∀ field ∈ fields, ∀ position : Nat, position < field.valueCount →
    c.processor.memory (globalPlace loaded.symbols field position) = 0

section
variable {g : CodeGenerator} {loaded : Loaded g.llir.fields} {before : LlirMethod → Offsets} {lines : List AssemblyLine}
  {outside : Word} {limit : Nat} {environment : Environment} {main : LlirMethod} {c : CodeState}

/-- The answers from the first step on do not matter for the frame of `main`. -/
private theorem generatedRun_answering {llir : Llir} (answers : Question → Answer) (first : Answer) (main : LlirMethod)
    (n : Nat) :
    generatedRun llir (environment.answering (Function.update answers (.frame 0) first)) main n =
        (generatedStep llir (environment.answering answers))^[n]
          (generatedRun llir (environment.answering fun _ => first) main 0) ∧
      1 ≤ (generatedRun llir (environment.answering (Function.update answers (.frame 0) first)) main n).activations := by
  induction n with
  | zero =>
    refine ⟨?_, le_rfl⟩
    have same : enterMethod (environment.answering (Function.update answers (.frame 0) first)) 0 main [] =
        enterMethod (environment.answering fun _ => first) 0 main [] := by
      simp only [enterMethod, Environment.answering, Function.update_self]
    rw [Function.iterate_zero_apply, generatedRun, generatedRun, startMethod, startMethod, same]
  | succ n ih =>
    obtain ⟨run, entered⟩ := ih
    have alike := @generatedStep_alike llir environment (Function.update answers (.frame 0) first) answers
      (generatedRun llir (environment.answering (Function.update answers (.frame 0) first)) main n)
    rw [Function.iterate_succ_apply', ← run, generatedRun]
    refine ⟨alike.same (fun _ => Function.update_of_ne (fun same => ?_) _ _) fun _ => Function.update_of_ne (by simp) _ _,
      entered.trans alike.enters⟩
    have zero := Question.frame.inj same
    omega

/-- The emitted code runs as the machine does from the start of the program. -/
theorem follows_generatedRun (prepared : Prepared loaded before lines outside limit environment)
    (found : g.llir.method "main" = some main) (arguments : main.arguments = [])
    (starts : c.Starts loaded lines outside limit) :
    ∃ answers : Question → Answer, ∀ n,
      (∀ i ≤ n, (generatedRun g.llir (environment.answering answers) main i).Fits g.llir loaded.bottom limit) →
      ∃ m, n ≤ m ∧ Observes loaded (generatedRun g.llir (environment.answering answers) main n)
        ((codeStep lines loaded)^[m] c) := by
  obtain ⟨known, isMain⟩ := Llir.method_mem found
  have bounded := (c.processor.registers .rsp).isLt
  have aligned := starts.aligned
  have high := starts.limit
  have small := prepared.small
  by_cases room : loaded.bottom + 16 + (generateStackAllocation (before main) main).1 ≤ limit
  · have entry : AtEntry (g.atMethod before main) loaded.toAddressSpace main c.processor := by
      refine ⟨aligned, ?_, ?_⟩
      · show loaded.bottom + 8 + (generateStackAllocation (before main) main).1 ≤ _
        omega
      · rw [arguments]
        show _ + 8 + 0 ≤ loaded.top
        omega
    obtain ⟨c', enters, related⟩ := @enters_method _ _ _ _ _ _ _ ⟨.running, [], fun _ _ => ⟨0, .garbage⟩, [], 1, 0⟩ c main
      prepared rfl starts.running (isMain.symm ▸ found) (isMain.symm ▸ starts.start) entry starts.zeros []
      (congrArg List.length arguments) (fun k value none => by cases none) []
      (by
        intro memory base address saved above
        refine ⟨?_, ?_⟩
        · rw [address, above _ le_rfl (by omega)]
          exact starts.address
        · rw [eq_sub_of_add_eq address, BitVec.toNat_sub, show (8 : Word).toNat = 8 from rfl]
          omega)
      (by
        rw [starts.calls]
        exact .nil)
    obtain ⟨k, reached⟩ := enters
    have start : Related loaded before lines outside limit (generatedRun g.llir
        (environment.answering fun _ => (frameWordsAt loaded before main c'.processor, 0)) main 0) c' := by
      have first := related (environment.answering fun _ => (frameWordsAt loaded before main c'.processor, 0)) 0 rfl
      have initialized : (startMethod (environment.answering fun _ => (frameWordsAt loaded before main c'.processor, 0)) main []
          fun _ _ => ⟨0, .garbage⟩).initialization g.llir = generateInitialization g.llir main := by
        simp only [MachineState.initialization, startMethod, List.head?_cons, Option.bind_some, enterMethod, isMain, found]
      rw [generatedRun, MachineState.executePrologue, initialized]
      exact first
    obtain ⟨answers, runs⟩ := follows_run prepared start
    refine ⟨Function.update answers (.frame 0) (frameWordsAt loaded before main c'.processor, 0), fun n fits => ?_⟩
    have same := fun n => (@generatedRun_answering environment g.llir answers
      (frameWordsAt loaded before main c'.processor, 0) main n).1
    simp only [same] at fits ⊢
    obtain ⟨m, many, after⟩ := runs n fits
    refine ⟨m + k, by omega, ?_⟩
    rw [Function.iterate_add_apply, reached]
    exact after.observes
  · refine ⟨fun _ => default, fun n fits => absurd ?_ room⟩
    have deep := (fits 0 (Nat.zero_le n)).room
    have frames : (generatedRun g.llir (environment.answering fun _ => default) main 0).frames =
        [enterMethod (environment.answering fun _ => default) 0 main []] := rfl
    have named : g.llir.method (enterMethod (environment.answering fun _ => default) 0 main []).method = some main := by
      rw [enterMethod, isMain]
      exact found
    rw [frames, stackNeed, List.map_cons, List.sum_cons, Frame.size_eq named (before main)] at deep
    omega

end

end Roast
