import Roast.Assembly.InterpretedPrograms

/-! The bounds of arrays in whole runs. The machine reads and writes inside the arrays, plain reads apart, and ends the
program where the interpreter finds an assigned index out of range. -/
namespace Roast
open Systems

/-- The execution of the assignment evaluates its index, which leaves `memory'` and is not a position of the array. -/
def IrAssignment.IndexOutside (environment : Environment) (invoke : String → List Word → Interpreter.Action Word)
    (assignment : IrAssignment) (memory memory' : Memory) : Prop :=
  ∃ node identifier index word words, assignment.location = .element node identifier index ∧
    Interpreter.evaluate environment invoke index memory = .done word memory' ∧
    memory'.find identifier = some words ∧ words.length ≤ word.toNat

theorem IrAssignment.IndexOutside.stops {environment : Environment}
    {invoke : String → List Word → Interpreter.Action Word} {assignment : IrAssignment} {memory memory' : Memory}
    (outside : assignment.IndexOutside environment invoke memory memory') :
    Interpreter.executeAssignment environment invoke assignment memory = .stopped (.exited (-1)) memory' := by
  obtain ⟨node, identifier, index, word, words, element, evaluated, found, large⟩ := outside
  rw [Interpreter.executeAssignment, Execution.bind_apply, element, Interpreter.evaluatePosition, Execution.bind_apply,
    evaluated, Ending.andThen, Execution.bind_apply, Execution.get_apply, Ending.andThen, found]
  dsimp only
  rw [Interpreter.checkIndex, if_neg (Nat.not_lt.mpr large)]
  rfl

section
variable {program analyzed : IrProgram} (source : program.FromSource) (accepted : Accepts program analyzed) {llir : Llir}
  (generated : llirGeneratorGenerateLlir analyzed = some llir) (environment : Environment) {method : IrMethod}
  (mem : method ∈ analyzed.methods) {callee : LlirMethod} (found : llir.method method.identifier = some callee)
  {values : List Word} (length : values.length = method.arguments.length) (globals : Store)
include source accepted generated mem found length

/-- The states of a run are good. -/
private theorem accepts_goodState (n : Nat) : GoodState llir environment analyzed False
    (run llir environment (startMethod environment callee values globals) n) := by
  have arguments : List.Forall₂ (fun (field : IrField) value => False → field.type = .bool → CanonicalWord value)
      method.arguments values :=
    List.forall₂_iff_zip.mpr ⟨length.symm, fun _ asked => asked.elim⟩
  have safe : Safe llir environment analyzed False n (startMethod environment callee values globals) :=
    (accepts_ready source accepted).startMethod_safe generated environment False mem found
    (fun asked => asked.elim) arguments n
  have good := safe.run_good fun m _ asked => asked.elim
  rwa [← run_eq_iterate] at good

/-- In every run of an accepted program the only accesses outside an array are plain reads. A failed bounds
check is followed by the exit with status -1, before anything else happens. And when the interpreter of the program comes
to an assignment whose index is out of range, the run exits with status -1, with the globals, the calls and the reads
outside an array that there were when the index had been evaluated. -/
theorem accepts_accessesInBounds_iff :
    (∀ n, let s := run llir environment (startMethod environment callee values globals) n
      (AccessesInBounds llir environment s ↔ PlainReadsInBounds llir environment s) ∧
        (FailsBoundsCheck llir environment s →
          ∃ frames, step llir environment (step llir environment s) = { s with status := .exited (-1), frames := frames })) ∧
    ∀ bindings, ScopeHolds globals 0 analyzed.fields bindings → ∀ bound invoke assignment memory memory',
      Execution.ComesTo (Interpreter.executeAssignment environment invoke assignment) memory
        (Interpreter.executeMethod environment (Interpreter.invoke environment analyzed (fun _ => id) bound) bound method
          values) ⟨[], bindings, [], 0⟩ →
      assignment.IndexOutside environment invoke memory memory' →
        ∃ n, (run llir environment (startMethod environment callee values globals) n).status = .exited (-1) ∧
          WorldHolds analyzed memory' (run llir environment (startMethod environment callee values globals) n) := by
  refine ⟨fun n => ?_, fun bindings holds bound invoke assignment memory memory' comes outside => ?_⟩
  · have good := accepts_goodState source accepted generated environment mem found length globals n
    exact ⟨good.accessesInBounds_iff, fun fails => ⟨_, good.exits fails⟩⟩
  · have behaves := (accepts_ready source accepted).run_behaves (step_entering llir environment analyzed) generated mem
      found length globals holds bound
    have stops : Interpreter.run environment analyzed (fun _ => id) bound method values bindings =
        .stopped (.exited (-1)) memory' := comes.stopped outside.stops
    rw [stops] at behaves
    obtain ⟨n, exited, -, world⟩ := behaves
    simp only [run_eq_iterate]
    exact ⟨n, exited, world⟩

end

def negativeIndexAssignment : IrAssignment :=
  ⟨.element 1 "a" (.methodCall "last" .nil), .add, some (digit '1' 1)⟩

/-- `int last() { return -1; } void main() { int a[2]; a[last()] += 1; }` -/
def negativeIndex : IrProgram where
  imports := []
  fields := []
  methods := [
    { imported := false, returnType := .int, identifier := "last", arguments := []
      block := .mk [] (.cons (.returnStatement (some (.literal
        { negate := true, type := .int, value := 1, token := some ⟨false, ['1']⟩ }))) .nil) },
    { imported := false, returnType := .void, identifier := "main", arguments := []
      block := .mk [{ intField 0 "a" with type := .intArray, arrayLength := 2, lengthToken := some ⟨false, ['2']⟩ }]
        (.cons (.assignment negativeIndexAssignment) .nil) }]

def negativeIndexLlir : Llir := (generateLlir (semanticsAnalyze negativeIndex).2).1

def negativeIndexMain : LlirMethod := (negativeIndexLlir.method "main").getD ⟨"", [], []⟩

/-- The check of `a[last()]` ends the program. -/
theorem accepts_accessesInBounds_iff_negativeIndex : ∃ n,
    (run negativeIndexLlir quietEnvironment
      (startMethod quietEnvironment negativeIndexMain [] negativeIndexLlir.initialGlobals) n).status = .exited (-1) := by
  have fromSource : negativeIndex.FromSource := by decide +kernel
  have accepted : Accepts negativeIndex (semanticsAnalyze negativeIndex).2 := Prod.ext (by decide +kernel) rfl
  have generated : llirGeneratorGenerateLlir (semanticsAnalyze negativeIndex).2 = some negativeIndexLlir := by
    decide +kernel
  have mem : (semanticsAnalyze negativeIndex).2.methods.get ⟨1, by decide +kernel⟩ ∈
    (semanticsAnalyze negativeIndex).2.methods := List.get_mem _ _
  have exits := (accepts_accessesInBounds_iff fromSource accepted generated quietEnvironment mem
    (show _ = some negativeIndexMain by decide +kernel) (show ([] : List Word).length = _ by decide +kernel)
    negativeIndexLlir.initialGlobals).2 [] .nil 2
  obtain ⟨n, exited, -⟩ := exits (Interpreter.invoke quietEnvironment (semanticsAnalyze negativeIndex).2 (fun _ => id) 2)
    negativeIndexAssignment ⟨[[("a", [0, 0])]], [], [], 0⟩ ⟨[[("a", [0, 0])]], [], [("last", [])], 0⟩
    (.next rfl (.next rfl (.first (.first (.first .here)))))
    ⟨1, "a", .methodCall "last" .nil, -1, [0, 0], rfl, by decide +kernel, rfl, by decide⟩
  exact ⟨n, exited⟩

/-- `x = a[1]` reads the word after the only element of `a`. -/
theorem overread_outOfBounds : ¬ ∀ n, AccessesInBounds overreadLlir quietEnvironment (overreadRun n) := by
  intro inBounds
  have next : (overreadRun 3).status = .running ∧ ((overreadRun 3).frames.head?.bind fun frame =>
      (frame.assignment overreadLlir).bind fun assignment => assignment.access.map fun access =>
        decide (InBounds ((overreadRun 3).operand overreadLlir quietEnvironment frame access.1) access.2)) = some false := by
    decide +kernel
  obtain ⟨running, next⟩ := next
  obtain ⟨frame, head, next⟩ := Option.bind_eq_some_iff.mp next
  obtain ⟨assignment, found, next⟩ := Option.bind_eq_some_iff.mp next
  obtain ⟨access, touched, outside⟩ := Option.map_eq_some_iff.mp next
  exact of_decide_eq_false outside (inBounds 3 frame assignment access.1 access.2 ⟨running, head, found⟩ touched).2

end Roast
