import Roast.Assembly.InterpretedStatements
import Roast.Assembly.SafePrograms

/-! A lowered program does what the interpreter says: its methods do, whatever they are called with. -/
namespace Roast
open LlirGenerator Systems

section
variable {arguments : List IrField} {values : List Word} (length : values.length = arguments.length)
  (distinct : (arguments.map IrField.identifier).Nodup) (ready : ∀ field ∈ arguments, field.Ready) {level : Nat}
  (positive : 0 < level)
include length distinct ready positive

private theorem arguments_nodup : (((arguments.map (IrField.llirField level)).zip values).map
    fun argument => argument.1.identifier).Nodup := by
  have first : ((arguments.map (IrField.llirField level)).zip values).map Prod.fst =
      arguments.map (IrField.llirField level) := List.map_fst_zip (by simp [length])
  have names : ((arguments.map (IrField.llirField level)).zip values).map (fun argument => argument.1.identifier) =
      (((arguments.map (IrField.llirField level)).zip values).map Prod.fst).map LlirField.identifier := by
    rw [List.map_map]
    rfl
  rw [names, first, List.map_map]
  refine List.Nodup.map_on (fun a ha b hb equal => ?_) distinct.of_map
  have name := (llirField_identifier_inj positive positive (ready a ha).identifier (ready b hb).identifier equal).2
  exact List.inj_on_of_nodup_map distinct ha hb name

/-- The arguments of a call are the first variables of the method. -/
private theorem bindArguments_holds (scalar : ∀ field ∈ arguments, field.type.isArray = false) (store : Store) :
    ScopeHolds (bindArguments store ((arguments.map (IrField.llirField level)).zip values)) level arguments
      ((arguments.map IrField.identifier).zip (values.map fun value => [value])) := by
  refine List.forall₂_iff_get.mpr ⟨by simp [length], fun i inside inside' => ?_⟩
  have below : i < values.length := by omega
  have field_mem := arguments.get_mem ⟨i, inside⟩
  have pair : ((arguments.get ⟨i, inside⟩).llirField level, values[i]) ∈
      (arguments.map (IrField.llirField level)).zip values :=
    List.mem_iff_getElem.mpr ⟨i, by simp [below, inside], by simp⟩
  have bound := bindArguments_origin store (arguments_nodup length distinct ready positive) pair
  have binding : ((arguments.map IrField.identifier).zip (values.map fun value => [value])).get ⟨i, inside'⟩ =
      ((arguments.get ⟨i, inside⟩).identifier, [values[i]]) := by simp
  rw [binding]
  refine ⟨rfl, ((ready _ field_mem).scalar (scalar _ field_mem)).symm, fun position word found => ?_⟩
  cases position with
  | zero =>
    rw [bound]
    exact Option.some.inj found
  | succ position => cases found

end

section
variable {llir : Llir} {g : LlirGenerator} {c : Context} {method : IrMethod} {callers : List Frame} {fields : List IrField}
  {statements : IrStatements} (hblock : method.block = .mk fields statements)
include hblock

private theorem generateMethodBody_block : generateMethodBody g method =
    generateStatements (fields.foldl generateBlockField (generateMethodStart g method)) none statements := by
  rw [generateMethodBody, hblock]
  rfl

private theorem generateMethodBody_begins :
    (generateStatements (fields.foldl generateBlockField (generateMethodStart g method)) none statements).Begins
      (generatedActivation g method callers).blocks := by
  rw [← generateMethodBody_block hblock]
  exact ⟨_, [], rfl, rfl, List.prefix_rfl, List.prefix_rfl⟩

/-- A call starts in the first block. -/
private theorem enterMethod_generated (valid : (generatedActivation g method callers).Valid llir)
    (environment : Environment)
    (activations : Nat) (values : List Word) :
    enterMethod environment activations (generateMethod g method).1 values =
      (generatedActivation g method callers).frame (generateMethodStart g method).currentBlock.id 0
        (bindArguments (fun name position => ⟨environment.garbage activations name position, .garbage⟩)
          ((generateMethod g method).1.arguments.zip values)) := by
  have grows := (generateBlockFields_grows fields (generateMethodStart g method)).trans
    (generateStatements_grows (fields.foldl generateBlockField (generateMethodStart g method)) none statements)
  have begins : (generateStatements (fields.foldl generateBlockField (generateMethodStart g method)) none
      statements).Begins (generatedActivation g method callers).blocks := generateMethodBody_begins hblock
  obtain ⟨current, rest, blocks, growth⟩ := grows.begins_of begins
  have laid : (generateMethod g method).1.blocks = (current :: rest).map fun block =>
      block.withPredecessors (generatedActivation g method callers).predecessors := by
    rw [← show (generateMethodStart g method).blocks ++ current :: rest = current :: rest from rfl, ← blocks]
    exact valid.blocks
  have first : ((generateMethod g method).1.blocks.head?.map LlirBlock.id).getD 0 =
      (generateMethodStart g method).currentBlock.id := by
    rw [laid]
    exact growth.id
  unfold enterMethod
  rw [first]
  rfl

end

section
variable {llir : Llir} {environment : Environment} {program : IrProgram} {move : MachineState → MachineState}
  {entering : String → Bindings → Bindings} (moves : Entering llir environment program move entering)
  {invoke : String → List Word → Interpreter.Action Word} {bound : Nat}
  (calls : CallsBehave llir environment program move invoke bound) (lowered : Lowered program llir)
include moves calls lowered

/-- A call of a generated method does what the interpreter says when its return does. -/
private theorem method_behaves {g : LlirGenerator} {c : Context} {method : IrMethod}
    (site : MethodSite program g c method)
    (mem : method ∈ program.methods) (found : llir.method method.identifier = some (generateMethod g method).1)
    (succeeds : (generateMethod g method).2.failed = false) {n : Nat} (hn : n ≤ bound) {s : MachineState}
    {values : List Word} {callers : List Frame} (status : s.status = .running)
    (length : values.length = method.arguments.length) {memory : Memory} {globals : Store}
    (world : WorldHolds program memory { s with globals := globals })
    {next : Word → Memory → Ending Status Memory Word}
    (returns : ∀ value memory' s', s'.status = .running → WorldHolds program memory' s' →
      memory'.locals = memory.locals → Behaves program move n (returnValue llir s' callers value) (next value memory')) :
    Behaves program move n
      { enterCall environment s (generateMethod g method).1 values callers with globals := globals }
      ((Interpreter.executeMethod environment invoke bound method values memory).andThen next) := by
  have hm := site.matchesScopes
  have valid : (generatedActivation g method callers).Valid llir := generatedActivation_valid site found
  obtain ⟨argumentFields, ready⟩ := generateMethod_arguments hm site.typed
  have typed := site.typed
  rw [Interpreter.executeMethod, Execution.bind_apply, Execution.get_apply, Ending.andThen, Execution.bind_apply,
    Execution.modify_apply, Ending.andThen, Execution.bind_apply, Ending.andThen_andThen]
  cases hblock : method.block with
  | mk fields statements =>
    rw [hblock] at typed
    cases typed with
    | mk scope typed =>
      have nonempty : c.scopes ≠ [] := by simp [site.scopes]
      have distinct := scope.distinct
      rw [List.map_append, List.nodup_append] at distinct
      obtain ⟨-, start⟩ := generateMethodStart_laid hm distinct.1 ready site.rests
      have readyFields (field : IrField) (mem : field ∈ fields) : field.Ready :=
        scope.field field (List.mem_append_right _ mem)
      obtain ⟨-, hm'⟩ : Declares False _ _ ∧ _ := generateBlockFields_declares start scope.distinct readyFields False.elim
      rw [map_analyzed scope.field] at typed
      have body := generateMethodBody_block (g := g) hblock
      have growsBody := generateStatements_grows (fields.foldl generateBlockField (generateMethodStart g method)) none
        statements
      have begins : (generateStatements (fields.foldl generateBlockField (generateMethodStart g method)) none
          statements).Begins (generatedActivation g method callers).blocks := generateMethodBody_begins hblock
      have succeedsBody : (generateStatements (fields.foldl generateBlockField (generateMethodStart g method)) none
          statements).failed = false := by
        rw [← body]
        exact (assert_grows ((generateMethodBody g method).setTerminal (methodEnd method)) _).succeeds succeeds
      have scalar (field : IrField) (inside : field ∈ method.arguments) :=
        (lowered.ready.arguments method mem field inside).1
      have positive : 0 < c.scopes.length := List.length_pos_iff.mpr nonempty
      have holds := bindArguments_holds length distinct.1 ready positive scalar
        fun name position => ⟨environment.garbage s.activations name position, .garbage⟩
      rw [← argumentFields] at holds
      have represents : Represents llir program (generatedActivation g method callers) (method.arguments :: c.scopes)
          (generateMethodStart g method) (({ memory with locals := [] } : Memory).push
            ((method.arguments.map IrField.identifier).zip (values.map fun value => [value])))
          { enterCall environment s (generateMethod g method).1 values callers with globals := globals }
          (bindArguments (fun name position => ⟨environment.garbage s.activations name position, .garbage⟩)
            ((generateMethod g method).1.arguments.zip values)) := by
        refine ⟨⟨status, ?_, False.elim, False.elim⟩, ⟨world.globals, world.calls, world.strays⟩, holds, ?_⟩
        · rw [enterCall, enterMethod_generated hblock valid]
          rfl
        · rw [site.scopes]
          trivial
      have exits : Exits llir program move (generatedActivation g method callers) ((method.arguments ++ fields) :: c.scopes)
          n none fun exit memory' => (Interpreter.leaveMethod method memory.locals exit memory').andThen next := by
        refine ⟨by simp, by simp, fun value memory' s' running world' => ?_⟩
        exact returns value { memory' with locals := memory.locals } s' running
          ⟨world'.globals, world'.calls, world'.strays⟩ rfl
      rw [Interpreter.enter, Interpreter.executeBody]
      refine generateBlockFields_behaves moves lowered valid nonempty readyFields start scope.distinct
        (growsBody.begins_of begins) (growsBody.succeeds succeedsBody) represents fun s₁ locals₁ represents₁ => ?_
      refine generateStatements_behaves moves calls lowered valid _ none statements (site.fits.enter _) hm'
        (fun inLoop => inLoop.elim) typed begins succeedsBody hn represents₁ exits
        fun memory₂ s₂ locals₂ represents₂ => ?_
      -- control falls off the end of the method
      have closed : ((generateMethodBody g method).setTerminal (methodEnd method)).currentBlock ∈
          (generatedActivation g method callers).blocks := by simp [generatedActivation, LlirGenerator.layout]
      rw [← body] at represents₂
      by_cases void : method.returnType = .void
      · rw [methodEnd, if_pos void] at closed
        have same : Interpreter.leaveMethod method memory.locals .next =
            Interpreter.leaveMethod method memory.locals (.returns 0) := if_pos void
        rw [same]
        exact behaves_return moves valid closed represents₂ (k := 0) rfl exits
      · rw [methodEnd, if_neg void] at closed
        have same : Interpreter.leaveMethod method memory.locals .next = Execution.stop (.exited (-2)) := if_neg void
        rw [same]
        refine behaves_terminal moves valid closed represents₂.point rfl rfl ?_
        exact ⟨0, rfl, trivial, represents₂.holds.globals, represents₂.holds.calls, represents₂.holds.strays⟩

end

section
variable {llir : Llir} {environment : Environment} {program : IrProgram} {move : MachineState → MachineState}
  {entering : String → Bindings → Bindings} (moves : Entering llir environment program move entering)
  (ready : program.Ready) (generated : llirGeneratorGenerateLlir program = some llir)
include moves ready generated

/-- Calls do what the interpreter says, by induction on their depth. -/
private theorem IrProgram.Ready.callsBehave (bound : Nat) :
    CallsBehave llir environment program move (Interpreter.invoke environment program entering bound) bound := by
  have lowered := ready.lowered generated
  have distinct := ((names_nodup program).mp ready.typed.distinct).2.2.1
  induction bound with
  | zero =>
    rintro n hn identifier values - s frame rest assignment memory next running world - - -
    obtain rfl : n = 0 := Nat.le_zero.mp hn
    exact behaves_unfinished running world
  | succ bound ih =>
    intro n hn identifier values target s frame rest assignment memory next running world suspended stepped returns
    rw [Interpreter.invoke, Execution.bind_apply, Execution.modify_apply, Ending.andThen]
    have called : WorldHolds program (memory.withCall (identifier, values))
        { s with calls := s.calls ++ [(identifier, values)] } :=
      ⟨world.globals, congrArg (· ++ [(identifier, values)]) world.calls, world.strays⟩
    unfold callMethod at stepped
    dsimp only at stepped
    have lower : n - 1 ≤ n := Nat.sub_le n 1
    obtain missing | ⟨method, mem, rfl, length⟩ := target
    · have unknown : program.methods.find? (fun method => method.identifier == identifier) = none := by
        refine List.find?_eq_none.mpr fun method mem same => ?_
        obtain ⟨g, c, -, found, -⟩ := ready.site generated mem
        rw [beq_iff_eq.mp same, missing] at found
        cases found
      rw [missing] at stepped
      rw [unknown]
      have calls : (memory.withCall (identifier, values)).calls = s.calls ++ [(identifier, values)] := called.calls
      simp only [Interpreter.callImported, Execution.bind_apply, Execution.get_apply, Ending.andThen, calls]
      cases response : environment.imported (s.calls ++ [(identifier, values)]) with
      | returned value =>
        simp only [response] at stepped
        refine .of_step ?_
        rw [moves.quiet s (by rw [stepped, store_activations]), stepped]
        exact (returns value (memory.withCall (identifier, values)) { s with calls := s.calls ++ [(identifier, values)] }
          running called rfl).mono lower
      | exited status =>
        simp only [response] at stepped
        exact behaves_stopped ((moves.quiet s (by rw [stepped])).trans stepped) rfl trivial
          ⟨called.globals, called.calls, called.strays⟩
      | hung =>
        simp only [response] at stepped
        exact behaves_stopped ((moves.quiet s (by rw [stepped])).trans stepped) rfl trivial
          ⟨called.globals, called.calls, called.strays⟩
    · obtain ⟨g, c, site, found, succeeds⟩ := ready.site generated mem
      have known : program.methods.find? (fun other => other.identifier == method.identifier) = some method :=
        find?_key distinct mem
      have count : (generateMethod g method).1.arguments.length = values.length := by
        rw [generateMethod_eq, (generateMethod_arguments site.matchesScopes site.typed).1, List.length_map, length]
      rw [found] at stepped
      dsimp only at stepped
      rw [if_pos count] at stepped
      rw [known]
      obtain ⟨globals, moved, kept⟩ := moves.enters s { s with calls := s.calls ++ [(method.identifier, values)] } _
        (List.mem_of_find?_eq_some found) values (frame :: rest) rfl running count stepped
      have entered : WorldHolds program
          { memory.withCall (method.identifier, values) with globals := entering method.identifier memory.globals }
          { s with calls := s.calls ++ [(method.identifier, values)], globals := globals } :=
        ⟨kept memory.globals world.globals, called.calls, called.strays⟩
      simp only [Execution.bind_apply, Execution.modify_apply, Ending.andThen]
      refine .of_step ?_
      rw [moved]
      refine method_behaves (n := n - 1) (s := { s with calls := s.calls ++ [(method.identifier, values)] }) moves ih lowered
        site mem found succeeds (Nat.sub_le_of_le_add hn) running length.symm entered
        fun value memory' s' running' world' same => ?_
      have resumed : returnValue llir s' (frame :: rest) value =
          s'.store llir frame rest assignment.destination 0 value := by
        simp only [returnValue, suspended]
      rw [resumed]
      exact (returns value memory' s' running' world' same).mono lower

/-- A call from outside does what the interpreter says. -/
theorem IrProgram.Ready.run_behaves {method : IrMethod} (mem : method ∈ program.methods) {callee : LlirMethod}
    (found : llir.method method.identifier = some callee) {values : List Word}
    (length : values.length = method.arguments.length) {bindings : Bindings} (store : Store) {globals : Store}
    (holds : ScopeHolds globals 0 program.fields bindings) (bound : Nat) :
    Behaves program move bound { startMethod environment callee values store with globals := globals }
      (Interpreter.run environment program entering bound method values bindings) := by
  obtain ⟨g, c, site, found', succeeds⟩ := ready.site generated mem
  obtain rfl := Option.some.inj (found'.symm.trans found)
  rw [Interpreter.run, ← Ending.andThen_done (Interpreter.executeMethod ..)]
  exact method_behaves moves (ready.callsBehave moves generated bound) (ready.lowered generated) site mem found' succeeds
    le_rfl (s := ⟨.running, [], store, [], 0, 0⟩) rfl length ⟨holds, rfl, rfl⟩
    fun value memory s running world same => behaves_done ⟨world.globals, world.calls, world.strays⟩ rfl

end

theorem step_entering (llir : Llir) (environment : Environment) (program : IrProgram) :
    Entering llir environment program (step llir environment) fun _ => id :=
  ⟨fun _ _ => rfl, fun _ s' _ _ _ _ _ _ _ stepped => ⟨s'.globals, stepped, fun _ => id⟩⟩

/-- Whatever words the globals have, they are those of some bindings. -/
private theorem exists_scopeHolds {fields : List IrField} (ready : ∀ field ∈ fields, field.Ready) (store : Store)
    (level : Nat) :
    ∃ bindings, ScopeHolds store level fields bindings := by
  refine ⟨fields.map fun field => (field.identifier, (List.range field.arrayLength.toNat).map fun position =>
    (store (field.llirField level).identifier position).value), ?_⟩
  refine List.forall₂_map_right_iff.mpr (List.forall₂_same.mpr fun field mem => ⟨rfl, ?_, fun position word found => ?_⟩)
  · rw [List.length_map, List.length_range]
    exact Int.toNat_of_nonneg (ready field mem).positive.le
  · rw [List.getElem?_map] at found
    obtain ⟨other, inside, rfl⟩ := Option.map_eq_some_iff.mp found
    obtain ⟨below, same⟩ := List.getElem?_eq_some_iff.mp inside
    rw [← same, List.getElem_range]

section
variable {program analyzed : IrProgram} (source : program.FromSource) (accepted : Accepts program analyzed) {llir : Llir}
  (generated : llirGeneratorGenerateLlir analyzed = some llir) {method : IrMethod} (mem : method ∈ analyzed.methods)
  {callee : LlirMethod} (found : llir.method method.identifier = some callee) {values : List Word}
  (length : values.length = method.arguments.length) (globals : Store) (environment : Environment)
include source accepted generated mem found length

/-- The LLIR of an accepted program does what the interpreter says: whatever a method is called with, its run returns the
value, exits with the status, traps or hangs as the interpreter does, with the same globals and after the same calls, or
goes on for as long as the interpreter does. It ends exactly when the interpreter does, with some bound. -/
theorem accepts_llirGenerator_behaves {bindings : Bindings} (holds : ScopeHolds globals 0 analyzed.fields bindings) :
    (∀ bound, Behaves analyzed (step llir environment) bound (startMethod environment callee values globals)
      (Interpreter.run environment analyzed (fun _ => id) bound method values bindings)) ∧
    ((∃ n, (run llir environment (startMethod environment callee values globals) n).status ≠ .running) ↔
      ∃ bound, ∀ memory,
        Interpreter.run environment analyzed (fun _ => id) bound method values bindings ≠ .unfinished memory) := by
  have behaves := (accepts_ready source accepted).run_behaves (step_entering llir environment analyzed) generated mem found
    length globals holds
  have stays (s : MachineState) (stopped : s.status ≠ .running) : (step llir environment s).status ≠ .running := by
    rwa [step_stopped stopped]
  refine ⟨behaves, ?_⟩
  simp only [run_eq_iterate]
  refine Realizes.ends_iff stays (fun value memory s seen => ?_) (fun status memory s seen => ?_)
    (fun memory s seen stopped => ?_) behaves
  · rw [seen.1]
    simp
  · rw [seen.1]
    exact seen.2.1.ne.1
  · exact stopped seen.1

/-- No run of an accepted program gets stuck. -/
theorem accepts_run_not_stuck (n : Nat) :
    (run llir environment (startMethod environment callee values globals) n).status ≠ .stuck := by
  have ready := accepts_ready source accepted
  obtain ⟨bindings, holds⟩ := exists_scopeHolds ready.typed.fields globals 0
  have behaves := ready.run_behaves (step_entering llir environment analyzed) generated mem found length globals holds n
  have stays (s : MachineState) (ended : s.status ≠ .running ∧ s.status ≠ .stuck) :
      (step llir environment s).status ≠ .running ∧ (step llir environment s).status ≠ .stuck := by
    rwa [step_stopped ended.1]
  have stuck_stays (s : MachineState) (stuck : s.status = .stuck) : (step llir environment s).status = .stuck := by
    rwa [step_stopped (by rw [stuck]; simp)]
  rw [run_eq_iterate]
  refine Realizes.avoids stays (fun value memory s seen => ?_) (fun status memory s seen => ?_) stuck_stays
    (fun s ended => ended.2) (fun memory s seen => ?_) behaves le_rfl
  · rw [seen.1]
    simp
  · rw [seen.1]
    exact seen.2.1.ne
  · rw [seen.1]
    simp

end

def digit (character : Char) (value : Word) : IrExpression :=
  .literal { negate := false, type := .int, value := value, token := some ⟨false, [character]⟩ }

def intField (node : Nat) (identifier : String) : IrField where
  node := node
  type := .int
  constant := false
  identifier := identifier
  arrayLength := 1
  lengthToken := none
  initializer := none

/-- `for (i = 0; i < limit; i += 1) { if (i == 1) { continue; } a[i] = i * i; if (i > 2 && a[i] > 8) { break; }
total += a[i]; }` -/
def squaresLoop : IrStatement :=
  .forStatement ⟨.scalar 10 "i", .set, some (digit '0' 0)⟩
    (.binary .less (.location (.scalar 11 "i")) (.location (.scalar 12 "limit")))
    (.assignment ⟨.scalar 13 "i", .add, some (digit '1' 1)⟩)
    (.mk [] (.cons (.ifStatement (.binary .equal (.location (.scalar 14 "i")) (digit '1' 1))
        (.mk [] (.cons .continueStatement .nil)))
      (.cons (.assignment ⟨.element 15 "a" (.location (.scalar 16 "i")), .set,
        some (.binary .mul (.location (.scalar 17 "i")) (.location (.scalar 18 "i")))⟩)
      (.cons (.ifStatement (.binary .and (.binary .greater (.location (.scalar 19 "i")) (digit '2' 2))
          (.binary .greater (.location (.element 20 "a" (.location (.scalar 21 "i")))) (digit '8' 8)))
        (.mk [] (.cons .breakStatement .nil)))
      (.cons (.assignment ⟨.scalar 22 "total", .add, some (.location (.element 23 "a" (.location (.scalar 24 "i"))))⟩)
      .nil)))))

/-- `int total = 3; int squares(int limit) { int a[4]; int i; ... return total; } void main() {}` -/
def squares : IrProgram where
  imports := []
  fields := [{ intField 0 "total" with
    initializer := some ⟨false, [{ negate := false, type := .int, value := 3, token := some ⟨false, ['3']⟩ }]⟩ }]
  methods := [
    { imported := false, returnType := .int, identifier := "squares", arguments := [intField 1 "limit"]
      block := .mk [{ intField 2 "a" with type := .intArray, arrayLength := 4, lengthToken := some ⟨false, ['4']⟩ },
          intField 3 "i"]
        (.cons squaresLoop (.cons (.returnStatement (some (.location (.scalar 25 "total")))) .nil)) },
    { imported := false, returnType := .void, identifier := "main", arguments := [], block := .mk [] .nil }]

def squaresLlir : Llir := (generateLlir (semanticsAnalyze squares).2).1

def squaresMethod : LlirMethod := (squaresLlir.method "squares").getD ⟨"", [], []⟩

def squaresAnalyzed : IrMethod := (semanticsAnalyze squares).2.methods.get ⟨0, by decide +kernel⟩

private theorem squaresAnalyzed_mem : squaresAnalyzed ∈ (semanticsAnalyze squares).2.methods := List.get_mem _ _

private theorem squares_generated : squares.FromSource ∧ Accepts squares (semanticsAnalyze squares).2 ∧
    llirGeneratorGenerateLlir (semanticsAnalyze squares).2 = some squaresLlir ∧
    squaresLlir.method squaresAnalyzed.identifier = some squaresMethod ∧
    ([5] : List Word).length = squaresAnalyzed.arguments.length :=
  ⟨by decide +kernel, Prod.ext (by decide +kernel) rfl, by decide +kernel, by decide +kernel, by decide +kernel⟩

/-- `total` is 3 + 0 + 4, and the loop is left before 9 is added. -/
theorem accepts_llirGenerator_behaves_squares : ∃ n,
    (run squaresLlir quietEnvironment (startMethod quietEnvironment squaresMethod [5] squaresLlir.initialGlobals) n).status =
      .returned 7 ∧
    WorldHolds (semanticsAnalyze squares).2 ⟨[], [("total", [7])], [], 0⟩
      (run squaresLlir quietEnvironment (startMethod quietEnvironment squaresMethod [5] squaresLlir.initialGlobals) n) := by
  have holds : ScopeHolds squaresLlir.initialGlobals 0 (semanticsAnalyze squares).2.fields [("total", [3])] := by
    refine .cons ⟨by decide +kernel, by decide +kernel, fun position word found => ?_⟩ .nil
    cases position with
    | zero =>
      obtain rfl := Option.some.inj found
      decide +kernel
    | succ position => cases found
  have behaves := (accepts_llirGenerator_behaves squares_generated.1 squares_generated.2.1 squares_generated.2.2.1
    squaresAnalyzed_mem squares_generated.2.2.2.1 squares_generated.2.2.2.2 squaresLlir.initialGlobals quietEnvironment
    holds).1 9
  have result : Interpreter.run quietEnvironment (semanticsAnalyze squares).2 (fun _ => id) 9 squaresAnalyzed [5]
      [("total", [3])] = .done 7 ⟨[], [("total", [7])], [], 0⟩ := by decide +kernel
  rw [result] at behaves
  obtain ⟨n, returned, world⟩ := behaves
  simp only [run_eq_iterate]
  exact ⟨n, returned, world⟩

theorem accepts_run_not_stuck_squares :
    (run squaresLlir quietEnvironment (startMethod quietEnvironment squaresMethod [5] squaresLlir.initialGlobals)
      1000).status ≠ .stuck :=
  accepts_run_not_stuck squares_generated.1 squares_generated.2.1 squares_generated.2.2.1
    squaresAnalyzed_mem squares_generated.2.2.2.1 squares_generated.2.2.2.2 squaresLlir.initialGlobals quietEnvironment 1000

end Roast
