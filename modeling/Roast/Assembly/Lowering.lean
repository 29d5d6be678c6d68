import Roast.Assembly.Scopes

/-! Accepted programs are lowered without a failure, and every name means the same declaration in the
checker and in the generator. -/
namespace Roast
open LlirGenerator

private theorem methodsTyped_take {r : Rules} {c : Context} {methods : List IrMethod} (h : MethodsTyped r c methods)
    (n : Nat) : MethodsTyped r c (methods.take n) := by
  induction n generalizing c methods with
  | zero => exact .nil
  | succ n ih =>
    cases h with
    | nil => exact .nil
    | cons hm hr => exact .cons hm (ih hr)

section
variable {program : IrProgram} (ready : program.Ready)
include ready

theorem IrProgram.Ready.globals_distinct : (program.fields.map IrField.identifier).Nodup :=
  (List.nodup_append.mp (List.nodup_append.mp ready.typed.distinct).1).2.1

theorem IrProgram.Ready.methods_typed :
    MethodsTyped readyRules ⟨[program.fields], program.imports⟩ program.methods := by
  have typed := ready.typed.methods
  rwa [map_analyzed ready.typed.fields] at typed

/-- The generator after the global fields. -/
theorem IrProgram.Ready.globals (small : Prop) :
    (generateGlobals llirGeneratorNew program.fields).1 = program.fields.map (IrField.llirField 0) ∧
      llirGeneratorNew.Declares small (generateGlobals llirGeneratorNew program.fields).2 ∧
      Matches [program.fields] (generateGlobals llirGeneratorNew program.fields).2.symbolTable := by
  have start : Matches [[]] llirGeneratorNew.symbolTable := .cons (by simp) .nil (fun _ _ => rfl) .nil
  rw [generateGlobals_eq]
  exact generateMethodArguments_declares start ready.globals_distinct ready.typed.fields

theorem IrProgram.Ready.generateMethods_follows (small : Prop) (hsmall : small → program.All smallArrays) (n : Nat) :
    (generateGlobals llirGeneratorNew program.fields).2.Follows small
      (generateMethods (generateGlobals llirGeneratorNew program.fields).2 (program.methods.take n)).2
      ((program.methods.take n).flatMap fun method =>
        method.block.resolve ⟨[program.fields], []⟩ method.arguments) :=
  Roast.generateMethods_follows (ready.globals small).2.2 (methodsTyped_take ready.methods_typed n)
    fun small method mem => ((hsmall small).methods method (List.mem_of_mem_take mem)).block

end

/-- What a program is lowered to. -/
theorem llirGeneratorGenerateLlir_eq {program : IrProgram} {llir : Llir}
    (generated : llirGeneratorGenerateLlir program = some llir) :
    (generateLlir program).1 = llir ∧ (generateLlir program).2.failed = false := by
  unfold llirGeneratorGenerateLlir at generated
  simp only at generated
  split at generated
  · cases generated
  · rename_i succeeds
    exact ⟨Option.some.inj generated, by simpa using succeeds⟩

structure LlirGenerator.Closed (g : LlirGenerator) : Prop where
  scopes : g.symbolTable.length = 1
  breakBlocks : g.breakBlocks = []
  continueBlocks : g.continueBlocks = []

/-- An accepted program is lowered. Its locations are looked up as in the checker, with the same
declarations; `break` and `continue` leave the innermost loop; and every method closes what it opens. -/
theorem accepts_lowered {program analyzed : IrProgram} (source : program.FromSource)
    (accepted : Accepts program analyzed) (small : program.All smallArrays) :
    (∃ llir, llirGeneratorGenerateLlir analyzed = some llir) ∧
      ((generateLlir analyzed).2.lookups.map declaredNode).Perm
        ((analyzeProgram semanticsNew program).2.lookups.map fun pair => (pair.1, some pair.2)) ∧
      (∀ exit ∈ (generateLlir analyzed).2.exits, InnermostExit exit) ∧
      ∀ n, (generateMethods (generateGlobals llirGeneratorNew analyzed.fields).2
        (analyzed.methods.take n)).2.Closed := by
  have ready := accepts_ready source accepted
  have hsmall := ((programTyped_and analyzed).mp (accepts_small source accepted small)).2
  obtain ⟨_, declares, _⟩ := ready.globals True
  have follows := ready.generateMethods_follows True fun _ => hsmall
  have whole := follows analyzed.methods.length
  rw [List.take_length] at whole
  refine ⟨⟨(generateLlir analyzed).1, ?_⟩, ?_, ?_, fun n => ?_⟩
  · have failed : (generateLlir analyzed).2.failed = false :=
      (whole.failed trivial).trans (declares.failed trivial)
    exact if_neg (by simp [failed])
  · have lookups := whole.lookups
    rw [declares.lookups] at lookups
    rw [accepts_lookups source accepted]
    exact lookups
  · refine whole.exits ?_
    rw [declares.exits]
    simp [llirGeneratorNew]
  · exact ⟨((follows n).names.length).trans declares.length, (follows n).breakBlocks.trans declares.breakBlocks,
      (follows n).continueBlocks.trans declares.continueBlocks⟩

/-- `int a; void main() { int a[2]; while (a[0] == 0) { bool a; a = true; break; } a[1] = 0; }` -/
def shadowing : IrProgram where
  imports := []
  fields := [scalar 0 .int]
  methods := [{
    imported := false, returnType := .void, identifier := "main", arguments := []
    block := .mk [{ scalar 1 .intArray with arrayLength := 2, lengthToken := some ⟨false, ['2']⟩ }]
      (.cons (.whileStatement (.binary .equal (.location (.element 2 "a" (.literal zero))) (.literal zero))
          (.mk [scalar 3 .bool] (.cons
            (.assignment ⟨.scalar 4 "a", .set, some (.literal { zero with type := .bool, value := 1, token := none })⟩)
            (.cons .breakStatement .nil))))
        (.cons (.assignment ⟨.element 5 "a" (.literal { zero with value := 1, token := some ⟨false, ['1']⟩ }),
          .set, some (.literal zero)⟩) .nil)) }]
where
  scalar (node : Nat) (type : IrDataType) : IrField :=
    { node := node, type := type, constant := false, identifier := "a", arrayLength := 1,
      lengthToken := none, initializer := none }
  zero : IrLiteral := { negate := false, type := .int, value := 0, token := some ⟨false, ['0']⟩ }

example : (analyzeProgram semanticsNew shadowing).2.lookups = [(2, 1), (4, 3), (5, 1)] := by decide +kernel

theorem shadowing_lowered :
    (∃ llir, llirGeneratorGenerateLlir (semanticsAnalyze shadowing).2 = some llir) ∧
      ((generateLlir (semanticsAnalyze shadowing).2).2.lookups.map declaredNode).Perm
        ((analyzeProgram semanticsNew shadowing).2.lookups.map fun pair => (pair.1, some pair.2)) ∧
      (∀ exit ∈ (generateLlir (semanticsAnalyze shadowing).2).2.exits, InnermostExit exit) ∧
      ∀ n, (generateMethods (generateGlobals llirGeneratorNew (semanticsAnalyze shadowing).2.fields).2
        ((semanticsAnalyze shadowing).2.methods.take n)).2.Closed :=
  accepts_lowered (by decide +kernel : shadowing.FromSource) (Prod.ext (by decide +kernel) rfl)
    (by decide +kernel)

end Roast
