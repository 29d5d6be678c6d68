import Roast.Assembly.InterpretedPrograms
import Roast.Assembly.StackBudget

/-! The emitted assembly of an accepted program does what the interpreter says. -/
namespace Roast
open Processor Systems

def initializeGlobals (fields : List IrField) (globals : Bindings) : Bindings :=
  List.zipWith (fun field binding => (binding.1, List.zipWith (fun declared word => if declared = 0 then word else declared)
    field.initialWords binding.2)) fields globals

def mainPrologue (program : IrProgram) (identifier : String) (globals : Bindings) : Bindings :=
  if identifier = "main" then initializeGlobals program.fields globals else globals

section
variable {program : IrProgram} {llir : Llir} (lowered : Lowered program llir)
include lowered

/-- The emitted initialization leaves what the declarations say. -/
private theorem initializeGlobals_holds {store : Store} {fields : List IrField}
    (declared : ∀ field ∈ fields, field ∈ program.fields)
    {globals : Bindings} (holds : ScopeHolds store 0 fields globals) :
    ScopeHolds ((llir.fields.flatMap generateGlobalFieldInitialization).foldl executeLine store) 0 fields
      (initializeGlobals fields globals) := by
  induction holds with
  | nil => exact .nil
  | @cons field binding fields globals head _ ih =>
    obtain ⟨name, words⟩ := head
    rw [List.forall_mem_cons] at declared
    refine .cons ⟨name, ?_, fun position word found => ?_⟩ (ih declared.2)
    · have length := words.length
      have whole := field.initialWords_length
      have count : (field.llirField 0).valueCount = field.arrayLength := rfl
      rw [List.length_zipWith]
      omega
    · rw [List.getElem?_zipWith_eq_some] at found
      obtain ⟨initial, old, isInitial, isOld, rfl⟩ := found
      have mem : field.llirField 0 ∈ llir.fields := by
        rw [lowered.fields]
        exact List.mem_map_of_mem declared.1
      have inside : position < (field.llirField 0).valueCount.toNat := by
        have below := (List.getElem?_eq_some_iff.mp isInitial).1
        rwa [field.initialWords_length] at below
      rw [foldl_executeLine lowered.named.distinct mem inside, llirField_value, IrField.initialWords_getElem? isInitial,
        words.word position old isOld]

/-- The generated code does what the machine does, and initializes the globals when it enters `main`. -/
private theorem generatedStep_entering (distinct : (llir.methods.map LlirMethod.identifier).Nodup)
    (environment : Environment) :
    Entering llir environment program (generatedStep llir environment) (mainPrologue program) := by
  refine ⟨fun s quiet => if_pos quiet, fun s s' callee mem values callers same _ _ stepped => ?_⟩
  refine ⟨(generateInitialization llir callee).foldl executeLine s'.globals, ?_, fun bindings holds => ?_⟩
  · have entered : ¬ (step llir environment s).activations = s.activations := by
      rw [stepped]
      exact fun equal => Nat.succ_ne_self _ (equal.trans same.symm)
    have found : llir.method (enterMethod environment s'.activations callee values).method = some callee :=
      Llir.method_of_mem distinct mem
    unfold generatedStep MachineState.executePrologue MachineState.initialization
    rw [if_neg entered, stepped, enterCall]
    dsimp only
    rw [List.head?_cons, Option.bind_some, found]
  · unfold mainPrologue generateInitialization
    split
    · exact initializeGlobals_holds lowered (fun _ => id) holds
    · exact holds

end

private theorem generatedRun_eq_iterate (llir : Llir) (environment : Environment) (main : LlirMethod) (n : Nat) :
    generatedRun llir environment main n = (generatedStep llir environment)^[n] (generatedRun llir environment main 0) := by
  induction n with
  | zero => rfl
  | succ n ih =>
    rw [Function.iterate_succ_apply', ← ih]
    rfl

structure CodeHolds {fields : List LlirField} (loaded : Loaded fields) (program : IrProgram) (memory : Memory)
    (c : CodeState) : Prop where
  globals : List.Forall₂ (fun (field : IrField) (binding : String × List Word) => binding.1 = field.identifier ∧
    (binding.2.length : Int) = field.arrayLength ∧ ∀ position word, binding.2[position]? = some word →
      c.processor.memory (globalPlace loaded.symbols (field.llirField 0) position) = word) program.fields memory.globals
  calls : CallsEnd c.calls memory.calls

def codeAppearance {fields : List LlirField} (loaded : Loaded fields) (program : IrProgram) :
    Appearance Status Memory Word CodeState where
  done value memory c := c.status = .returned value ∧ CodeHolds loaded program memory c
  stopped status memory c := c.status = status ∧ CodeHolds loaded program memory c
  running memory c := c.status = .running ∧ CodeHolds loaded program memory c

/-- What the machine holds, the memory of the code holds. -/
private theorem Observes.codeHolds {program : IrProgram} {llir : Llir} (lowered : Lowered program llir)
    {loaded : Loaded llir.fields} {memory : Memory} {s : MachineState} {c : CodeState} (observes : Observes loaded s c)
    (world : WorldHolds program memory s) : CodeHolds loaded program memory c := by
  have declared : List.Forall₂ (fun (field : IrField) (binding : String × List Word) => field ∈ program.fields ∧
      binding.1 = field.identifier ∧ WordsHold s.globals (field.llirField 0) binding.2) program.fields memory.globals :=
    (List.forall₂_and_left _ _).mpr ⟨fun _ => id, world.globals⟩
  refine ⟨declared.imp fun field binding holds => ?_, world.calls ▸ observes.calls⟩
  obtain ⟨mem, name, words⟩ := holds
  refine ⟨name, words.length, fun position word found => ?_⟩
  have inside : (position : Int) < (field.llirField 0).valueCount := by
    have below := (List.getElem?_eq_some_iff.mp found).1
    have length := words.length
    omega
  have listed : field.llirField 0 ∈ llir.fields := by
    rw [lowered.fields]
    exact List.mem_map_of_mem mem
  rw [observes.globals _ listed position inside, words.word position word found]

/-- A machine that has stopped stays as it is. -/
private theorem generatedStep_stopped {llir : Llir} {environment : Environment} {s : MachineState}
    (stopped : s.status ≠ .running) :
    generatedStep llir environment s = s := by
  have stays : step llir environment s = s := step_stopped stopped
  rw [generatedStep, if_pos (by rw [stays]), stays]

private theorem generatedRun_stuck {llir : Llir} {environment : Environment} {main : LlirMethod} {n m : Nat}
    (hn : n ≤ m)
    (stuck : (generatedRun llir environment main n).status = .stuck) :
    (generatedRun llir environment main m).status = .stuck := by
  induction hn with
  | refl => exact stuck
  | step _ ih =>
    rw [generatedRun, generatedStep_stopped (by rw [ih]; decide)]
    exact ih

section
variable {program : IrProgram} (ready : program.Ready) {llir : Llir}
  (generated : llirGeneratorGenerateLlir program = some llir) {method : IrMethod} (mem : method ∈ program.methods)
  (isMain : method.identifier = "main") {main : LlirMethod} (found : llir.method "main" = some main)
  (environment : Environment)
include ready generated mem isMain found

/-- The globals start with their declared words. -/
private theorem IrProgram.Ready.generatedRun_behaves (bound : Nat) :
    Behaves program (generatedStep llir environment) bound (generatedRun llir environment main 0)
      (Interpreter.run environment program (mainPrologue program) bound method [] (declare program.fields)) := by
  have lowered := ready.lowered generated
  have moves := generatedStep_entering lowered (ready.methods_distinct generated) environment
  have holds : ScopeHolds (generatedRun llir environment main 0).globals 0 program.fields (declare program.fields) := by
    refine List.forall₂_map_right_iff.mpr (List.forall₂_same.mpr fun field inside => ⟨rfl, ?_, fun position word found' =>
      ?_⟩)
    · rw [field.initialWords_length]
      exact Int.toNat_of_nonneg (ready.typed.fields field inside).positive.le
    · have below := (List.getElem?_eq_some_iff.mp found').1
      rw [field.initialWords_length] at below
      exact (generatedRun_initial lowered found inside (Int.lt_toNat.mp below)).trans (IrField.initialWords_getElem? found')
  have arguments : method.arguments = [] := by
    obtain ⟨g, c, site, found', -⟩ := ready.site generated mem
    have none := ready.main_arguments generated found
    rw [isMain] at found'
    obtain rfl := Option.some.inj (found'.symm.trans found)
    rw [generateMethod_eq, (generateMethod_arguments site.matchesScopes site.typed).1] at none
    exact List.map_eq_nil_iff.mp none
  exact ready.run_behaves moves generated mem (isMain ▸ found) (congrArg List.length arguments).symm
    (fun _ _ => ⟨0, .garbage⟩) holds bound

end

/-- The code that starts in `c` does what the interpreter says of `method` with the declared words in the globals, for as
long as the stack has room. -/
def CodeBehaves {fields : List LlirField} (loaded : Loaded fields) (lines : List AssemblyLine) (limit : Nat)
    (program : IrProgram) (llir : Llir) (method : IrMethod) (main : LlirMethod) (imported : List Call → Response)
    (c : CodeState) : Prop :=
  ∃ environment : Environment, environment.imported = imported ∧
    (∀ symbol ∈ definitions lines, ∀ string, symbol.entity = .string string →
      environment.stringAddress string = loaded.symbols symbol.name) ∧
    ((∀ n, loaded.bottom + stackNeed llir (generatedRun llir environment main n).frames ≤ limit) →
      ∀ bound, Realizes (codeStep lines loaded) (codeAppearance loaded program) bound c
        (Interpreter.run environment program (mainPrologue program) bound method [] (declare program.fields)))

section
variable {program analyzed : IrProgram} (source : program.FromSource) (accepted : Accepts program analyzed) {llir : Llir}
  (generated : llirGeneratorGenerateLlir analyzed = some llir)
include source accepted generated

/-- The emitted code realizes the interpreted program. -/
theorem accepts_codeBehaves (representable : llir.Representable) {method : IrMethod}
    (mem : method ∈ analyzed.methods) (isMain : method.identifier = "main") {main : LlirMethod}
    (found : llir.method "main" = some main) {pinholeOptimize : Bool} {lines : List AssemblyLine}
    (emitted : codeGeneratorGenerate pinholeOptimize llir = some lines)
    (linkable : Linkable (analyzed.imports.map IrMethod.identifier) llir lines) (loaded : Loaded llir.fields)
    {outside : Word} (apart : ReturnsApart lines loaded.behind outside) {limit : Nat} (small : limit ≤ loaded.top)
    {imported : List Call → Response} (serves : loaded.host.Serves imported) {c : CodeState}
    (starts : c.Starts loaded lines outside limit) :
    CodeBehaves loaded lines limit analyzed llir method main imported c := by
  obtain ⟨environment, serving, ⟨g, known, address⟩, runs⟩ := accepts_follows source accepted generated representable found
    emitted linkable loaded apart small serves starts
  refine ⟨environment, serving, fun symbol inside string isString => ?_, fun room bound => ?_⟩
  · rw [address]
    exact accepts_stringAddress source accepted generated emitted linkable loaded known symbol inside string isString
  have ready := accepts_ready source accepted
  have lowered := ready.lowered generated
  -- a run that has come to its end was never stuck
  have follows {m : Nat} (defined : ((generatedStep llir environment)^[m] (generatedRun llir environment main 0)).status ≠
      .stuck) : ∃ m', m ≤ m' ∧ Observes loaded ((generatedStep llir environment)^[m] (generatedRun llir environment main 0))
        ((codeStep lines loaded)^[m'] c) := by
    rw [← generatedRun_eq_iterate] at defined ⊢
    exact runs m fun i before => ⟨room i, fun stuck => defined (generatedRun_stuck before stuck)⟩
  have behaves := ready.generatedRun_behaves generated mem isMain found environment bound
  cases ending : Interpreter.run environment analyzed (mainPrologue analyzed) bound method [] (declare analyzed.fields) with
  | done value memory =>
    rw [ending] at behaves
    obtain ⟨m, returned, world⟩ := behaves
    obtain ⟨m', -, observes⟩ := follows (by rw [returned]; simp)
    exact ⟨m', observes.status.trans returned, observes.codeHolds lowered world⟩
  | stopped status memory =>
    rw [ending] at behaves
    obtain ⟨m, stopped, stops, world⟩ := behaves
    obtain ⟨m', -, observes⟩ := follows (by
      rw [stopped]
      rintro rfl
      exact stops)
    exact ⟨m', observes.status.trans stopped, observes.codeHolds lowered world⟩
  | unfinished memory =>
    rw [ending] at behaves
    obtain ⟨m, enough, running, world⟩ := behaves
    obtain ⟨m', further, observes⟩ := follows (by rw [running]; simp)
    exact ⟨m', enough.trans further, observes.status.trans running, observes.codeHolds lowered world⟩
  | undefined =>
    rw [ending] at behaves
    exact behaves.elim

/-- The emitted assembly of an accepted program, started with zeros in its globals, does what the interpreter says of `main`
with the declared words in the globals, for as long as the stack has room: it returns the value, exits with the status, traps
or hangs as the interpreter does, with the same globals and after the same calls, or goes on for as long as the interpreter
does. All memory is taken as readable: a read outside an array gives a word and never faults. -/
theorem accepts_codeGeneratorGenerate_behaves (representable : llir.Representable) {method : IrMethod}
    (mem : method ∈ analyzed.methods) (isMain : method.identifier = "main") {main : LlirMethod}
    (found : llir.method "main" = some main) {pinholeOptimize : Bool} {lines : List AssemblyLine}
    (emitted : codeGeneratorGenerate pinholeOptimize llir = some lines)
    (linkable : Linkable (analyzed.imports.map IrMethod.identifier) llir lines) (loaded : Loaded llir.fields)
    {outside : Word} (apart : ReturnsApart lines loaded.behind outside) {limit : Nat} (small : limit ≤ loaded.top)
    {imported : List Call → Response} (serves : loaded.host.Serves imported) {c : CodeState}
    (starts : c.Starts loaded lines outside limit) :
    ∃ environment : Environment, environment.imported = imported ∧
      (∀ symbol ∈ definitions lines, ∀ string, symbol.entity = .string string →
        environment.stringAddress string = loaded.symbols symbol.name) ∧
      ((∀ n, loaded.bottom + stackNeed llir (generatedRun llir environment main n).frames ≤ limit) →
        ∀ bound, Realizes (codeStep lines loaded) (codeAppearance loaded analyzed) bound c
          (Interpreter.run environment analyzed (mainPrologue analyzed) bound method [] (declare analyzed.fields))) :=
  accepts_codeBehaves source accepted generated representable mem isMain found emitted linkable loaded apart small serves
    starts

end

def printedGlobalAnalyzed : IrMethod := (semanticsAnalyze printedGlobal).2.methods.get ⟨0, by decide +kernel⟩

private theorem printedGlobalAnalyzed_mem :
    printedGlobalAnalyzed ∈ (semanticsAnalyze printedGlobal).2.methods := List.get_mem _ _

/-- The program prints 2 and returns. -/
theorem printedGlobal_run (address : String → Word) (garbage : Nat → String → Nat → Word) (stray : Nat → Word) :
    Interpreter.run ⟨quietImports, address, garbage, stray⟩ (semanticsAnalyze printedGlobal).2
      (mainPrologue (semanticsAnalyze printedGlobal).2) 1 printedGlobalAnalyzed []
      (declare (semanticsAnalyze printedGlobal).2.fields) = .done 0 ⟨[], [("g", [2])], [("print", [2])], 0⟩ := rfl

theorem printedGlobal_room (environment : Environment) (n : Nat) :
    printedGlobalLoaded.bottom +
      stackNeed printedGlobalLlir (generatedRun printedGlobalLlir environment printedGlobalMain n).frames ≤ 32768 := by
  have need := (printedGlobal_budget.generatedRun_fits printedGlobal_generated.2.2.2.1 environment n).sum_le fun _ =>
    printedGlobal_budget.covers
  exact (Nat.add_le_add_left need 4096).trans (by decide)

theorem accepts_codeGeneratorGenerate_behaves_printedGlobal : ∃ m,
    ((codeStep printedGlobalLines printedGlobalLoaded)^[m] printedGlobalStart).status = .returned 0 ∧
      CodeHolds printedGlobalLoaded (semanticsAnalyze printedGlobal).2 ⟨[], [("g", [2])], [("print", [2])], 0⟩
        ((codeStep printedGlobalLines printedGlobalLoaded)^[m] printedGlobalStart) := by
  obtain ⟨source, -, generated, found, -⟩ := printedGlobal_generated
  obtain ⟨⟨imported, address, garbage, stray⟩, serving, -, behaves⟩ := accepts_codeGeneratorGenerate_behaves source
    printedGlobal_accepted generated printedGlobal_representable printedGlobalAnalyzed_mem rfl found printedGlobal_emitted
    printedGlobal_linkable printedGlobalLoaded printedGlobal_apart (by decide) quietHost_serves printedGlobal_starts
  obtain rfl : imported = quietImports := serving
  have realizes := behaves (printedGlobal_room ⟨quietImports, address, garbage, stray⟩) 1
  rw [printedGlobal_run] at realizes
  exact realizes

end Roast
