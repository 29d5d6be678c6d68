import Roast.Assembly.InterpretedSteps

/-! The code that is generated for an expression does what the interpreter does with it. -/
namespace Roast
open LlirGenerator Systems

section
variable (llir : Llir) (environment : Environment) (program : IrProgram) (move : MachineState → MachineState)

def Receives {α : Type} (activation : Activation) (scopes : List (List IrField)) (n k : Nat) (g : LlirGenerator)
    (locals : Store) (result : α → Store → Prop) (next : α → Memory → Ending Status Memory Word) : Prop :=
  ∀ value memory s' locals', Represents llir program activation scopes g memory s' locals' → Kept k locals locals' →
    result value locals' → Behaves program move n s' (next value memory)

def CallsBehave (invoke : String → List Word → Interpreter.Action Word) (bound : Nat) : Prop :=
  ∀ n ≤ bound, ∀ identifier values,
    (llir.method identifier = none ∨
      ∃ method ∈ program.methods, method.identifier = identifier ∧ method.arguments.length = values.length) →
    ∀ s frame rest assignment memory next, s.status = .running → WorldHolds program memory s →
      frame.assignment llir = some assignment →
      step llir environment s = callMethod llir environment s frame rest identifier values assignment.destination →
      (∀ value memory' s', s'.status = .running → WorldHolds program memory' s' → memory'.locals = memory.locals →
        Behaves program move n (s'.store llir frame rest assignment.destination 0 value) (next value memory')) →
      Behaves program move n s ((invoke identifier values memory).andThen next)

end

section
variable {llir : Llir} {environment : Environment} {program : IrProgram} {move : MachineState → MachineState}
  {entering : String → Bindings → Bindings} {activation : Activation} {scopes : List (List IrField)} {g : LlirGenerator}
  {memory : Memory} {s : MachineState} {locals : Store} {n : Nat}

theorem Receives.after {α : Type} {result : α → Store → Prop} {next : α → Memory → Ending Status Memory Word} {k k' : Nat}
    {locals' : Store} (h : Receives llir program move activation scopes n k g locals result next)
    (kept : Kept k locals locals') (hk : k ≤ k') :
    Receives llir program move activation scopes n k' g locals' result next :=
  fun value memory s' locals'' represents kept' holds => h value memory s' locals'' represents (kept.trans kept' hk) holds

/-- The representation does not depend on what the generator looks up or checks. -/
theorem RepresentsAt.of_block {g' : LlirGenerator}
    (represents : Represents llir program activation scopes g memory s locals) (same : g'.currentBlock = g.currentBlock) :
    Represents llir program activation scopes g' memory s locals := by
  unfold Represents
  rw [same]
  exact represents

section
variable (moves : Entering llir environment program move entering) (valid : activation.Valid llir)
  (named : llir.Named) {tables : List (List (String × LlirField))} (hm : Matches scopes tables)
  {next : Word → Memory → Ending Status Memory Word}
include moves valid named hm

/-- A value is computed into a temporary. -/
private theorem behaves_value {assignment : LlirAssignment}
    (begins : (g.addAssignment assignment).Begins activation.blocks)
    (represents : Represents llir program activation scopes g memory s locals) {g₀ : LlirGenerator} {field : LlirField}
    (fresh : FreshTemporary llir g₀ field) {k : Nat} (hk : g₀.temporaryCounter + 1 ≤ k) {value : Word}
    (stores : stepAssignment llir environment s (activation.frameAt g locals) activation.callers assignment =
      s.store llir (activation.frameAt g locals) activation.callers field 0 value)
    (receives : Receives llir program move activation scopes n g₀.temporaryCounter (g.addAssignment assignment) locals
      (fun value locals' => OperandHolds llir environment locals' k value (.field field)) next) :
    Behaves program move n s (next value memory) :=
  behaves_temporary moves valid named hm begins represents fresh stores fun s' represents' =>
    (receives value memory s' _ represents' (Kept.write fresh.name locals 0 value) (fresh.holds locals hk value)).mono
      (Nat.sub_le n 1)

/-- A unary operator leaves its value in a new temporary. -/
theorem behaves_unary {type : LlirUnaryType} {source : LlirOperand} {k : Nat} {value : Word}
    (begins : (g.newLocalTemporary.2.addAssignment (.unary type source g.newLocalTemporary.1)).Begins activation.blocks)
    (represents : Represents llir program activation scopes g memory s locals)
    (holds : s.operand llir environment (activation.frameAt g locals) source = value)
    (hk : g.temporaryCounter + 1 ≤ k)
    (receives : Receives llir program move activation scopes n g.temporaryCounter
      (g.newLocalTemporary.2.addAssignment (.unary type source g.newLocalTemporary.1)) locals
      (fun value locals' => OperandHolds llir environment locals' k value (.field g.newLocalTemporary.1)) next) :
    Behaves program move n s (next (type.apply value) memory) := by
  subst holds
  have represents₁ : Represents llir program activation scopes g.newLocalTemporary.2 memory s locals := represents
  exact behaves_value moves valid named hm begins represents₁ (newLocalTemporary_fresh named g) hk rfl receives

/-- An operator that may trap. -/
theorem behaves_binary {operator : IrBinaryOperator} (both : ¬ (operator = .or ∨ operator = .and))
    {left right : LlirOperand} {k k' k'' : Nat} {leftWord rightWord : Word}
    (begins : (g.newLocalTemporary.2.addAssignment
      (.binary (irOperatorToAssignmentType operator) left right g.newLocalTemporary.1)).Begins activation.blocks)
    (represents : Represents llir program activation scopes g memory s locals)
    (hl : OperandHolds llir environment locals k' leftWord left)
    (hr : OperandHolds llir environment locals k'' rightWord right) (hk : g.temporaryCounter + 1 ≤ k)
    (receives : Receives llir program move activation scopes n g.temporaryCounter (g.newLocalTemporary.2.addAssignment
      (.binary (irOperatorToAssignmentType operator) left right g.newLocalTemporary.1)) locals
      (fun value locals' => OperandHolds llir environment locals' k value (.field g.newLocalTemporary.1)) next) :
    Behaves program move n s ((Interpreter.apply operator leftWord rightWord memory).andThen next) := by
  have represents₁ : Represents llir program activation scopes g.newLocalTemporary.2 memory s locals := represents
  have leftRead : s.operand llir environment (activation.frameAt g.newLocalTemporary.2 locals) left = leftWord :=
    hl.operand s _ _
  have rightRead : s.operand llir environment (activation.frameAt g.newLocalTemporary.2 locals) right = rightWord :=
    hr.operand s _ _
  unfold Interpreter.apply
  cases applied : operator.apply leftWord rightWord with
  | some value =>
    have steps : stepAssignment llir environment s (activation.frameAt g.newLocalTemporary.2 locals) activation.callers
        (.binary (irOperatorToAssignmentType operator) left right g.newLocalTemporary.1) =
          s.store llir (activation.frameAt g.newLocalTemporary.2 locals) activation.callers g.newLocalTemporary.1 0 value := by
      simp only [stepAssignment, leftRead, rightRead, irOperatorToAssignmentType_apply both, applied]
    exact behaves_value moves valid named hm begins represents₁ (newLocalTemporary_fresh named g) hk steps receives
  | none =>
    have steps : stepAssignment llir environment s (activation.frameAt g.newLocalTemporary.2 locals) activation.callers
        (.binary (irOperatorToAssignmentType operator) left right g.newLocalTemporary.1) =
          { s with status := .trapped } := by
      simp only [stepAssignment, leftRead, rightRead, irOperatorToAssignmentType_apply both, applied]
    refine behaves_assignment moves valid begins represents₁.point steps rfl ?_
    exact ⟨0, rfl, trivial, represents.holds.globals, represents.holds.calls, represents.holds.strays⟩

/-- An element is read into a temporary. -/
theorem behaves_access {index : LlirOperand} {array : LlirField} {guarded : Bool} {g₀ : LlirGenerator} {field : LlirField}
    {k k' : Nat} {position : Word} {words : List Word}
    (begins : (g.addAssignment (.arrayAccess index array field guarded)).Begins activation.blocks)
    (represents : Represents llir program activation scopes g memory s locals)
    (holds : OperandHolds llir environment locals k' position index)
    (array_holds : WordsHold (if llir.IsGlobal array.identifier then s.globals else locals) array words)
    (fresh : FreshTemporary llir g₀ field) (hk : g₀.temporaryCounter + 1 ≤ k) {value : Word}
    (found : words[position.toNat]? = some value)
    (receives : Receives llir program move activation scopes n g₀.temporaryCounter
      (g.addAssignment (.arrayAccess index array field guarded)) locals
      (fun value locals' => OperandHolds llir environment locals' k value (.field field)) next) :
    Behaves program move n s (next value memory) := by
  refine behaves_value moves valid named hm begins represents fresh hk ?_ receives
  have read : s.operand llir environment (activation.frameAt g locals) index = position := holds.operand s _ _
  have inside : InBounds position array := (array_holds.inBounds position).mpr (List.getElem?_eq_some_iff.mp found).1
  unfold stepAssignment
  dsimp only
  rw [read, if_pos inside]
  have word := array_holds.word _ _ found
  rw [← word, MachineState.cell, Activation.frameAt_locals]
  split <;> rfl

/-- Outside an array there is some word. -/
private theorem behaves_stray {index : LlirOperand} {array : LlirField} {guarded : Bool} {g₀ : LlirGenerator}
    {field : LlirField}
    {k k' : Nat} {position : Word} {words : List Word}
    (begins : (g.addAssignment (.arrayAccess index array field guarded)).Begins activation.blocks)
    (represents : Represents llir program activation scopes g memory s locals)
    (holds : OperandHolds llir environment locals k' position index)
    (array_holds : WordsHold (if llir.IsGlobal array.identifier then s.globals else locals) array words)
    (fresh : FreshTemporary llir g₀ field) (hk : g₀.temporaryCounter + 1 ≤ k) (outside : words[position.toNat]? = none)
    (receives : Receives llir program move activation scopes n g₀.temporaryCounter
      (g.addAssignment (.arrayAccess index array field guarded)) locals
      (fun value locals' => OperandHolds llir environment locals' k value (.field field)) next) :
    Behaves program move n s (next (environment.stray memory.strays) { memory with strays := memory.strays + 1 }) := by
  obtain ⟨at', world, localsHold⟩ := represents
  have read : s.operand llir environment (activation.frameAt g locals) index = position := holds.operand s _ _
  have away : ¬ InBounds position array := fun inside =>
    absurd ((array_holds.inBounds position).mp inside) (Nat.not_lt.mpr (List.getElem?_eq_none_iff.mp outside))
  have steps : stepAssignment llir environment s (activation.frameAt g locals) activation.callers
      (.arrayAccess index array field guarded) = { s with strays := s.strays + 1 }.store llir (activation.frameAt g locals)
        activation.callers field 0 (environment.stray s.strays) := by
    unfold stepAssignment
    dsimp only
    rw [read, if_neg away]
  have at₁ : Executing llir activation g { s with strays := s.strays + 1 } locals :=
    ⟨at'.status, at'.frames, False.elim, False.elim⟩
  have holds₁ : MemoryHolds program scopes { memory with strays := memory.strays + 1 } { s with strays := s.strays + 1 }
      locals := ⟨⟨world.globals, world.calls, congrArg (· + 1) world.strays⟩, localsHold⟩
  rw [world.strays]
  rw [world.strays] at holds₁
  refine behaves_assignment moves valid begins at' steps (store_activations ..) ((receives _ _ _ _ ⟨?_, ?_⟩
    (Kept.write fresh.name locals 0 _) (fresh.holds locals hk _)).mono (Nat.sub_le n 1))
  · exact at₁.store named _ 0 False.elim fun isGlobal => absurd isGlobal fresh.isLocal
  · exact holds₁.temporary hm fresh _ _ _

/-- A value is moved into a temporary and tested: the code goes on at the false block when it is 1 for `||`, and when it
is not 1 for `&&`. -/
private theorem behaves_choose {comparison : LlirBranchType} {operand : LlirOperand} {g₀ : LlirGenerator}
    {field : LlirField}
    {k : Nat} {value : Word}
    (begins : ((g.addMove operand field).branchNew comparison false operand (.literal 1)).2.Begins activation.blocks)
    (represents : Represents llir program activation scopes g memory s locals)
    (holds : OperandHolds llir environment locals k value operand) (fresh : FreshTemporary llir g₀ field)
    (other : ∀ field', operand = .field field' → field'.identifier ≠ field.identifier)
    {ending : Ending Status Memory Word}
    (next : ∀ s', RepresentsAt llir program activation scopes
      (if comparison.holds false value 1 then g.blockCounter + 1 else g.blockCounter) 0 memory s'
      (locals.write llir field 0 value) → Behaves program move (n - 1) s' ending) : Behaves program move n s ending := by
  refine behaves_temporary moves valid named hm ((branchNew_grows _ _ _ _ _).begins_of begins) represents fresh
    (congrArg (s.store llir _ _ field 0) (holds.operand s _ _)) fun s₁ represents₁ => ?_
  have kept : OperandHolds llir environment (locals.write llir field 0 value) k value operand := by
    cases operand with
    | field field' =>
      obtain ⟨old, isLocal, same⟩ := holds
      exact ⟨old, isLocal, by rwa [Store.write_other llir locals field 0 value (other field' rfl)]⟩
    | literal literal => exact holds
    | string string => exact holds
  exact behaves_branch moves valid begins represents₁ (kept.operand s₁ _ _) rfl fun s₂ represents₂ =>
    (next s₂ represents₂).mono (Nat.sub_le _ 1)

omit moves in
/-- A call in an expression. -/
private theorem behaves_call {invoke : String → List Word → Interpreter.Action Word} {bound : Nat}
    (calls : CallsBehave llir environment program move invoke bound) (hn : n ≤ bound) {identifier : String}
    {operands : List LlirOperand} {values : List Word} {g₀ : LlirGenerator} {field : LlirField} {k k' : Nat}
    (begins : (g.addAssignment (.methodCall identifier operands field)).Begins activation.blocks)
    (represents : Represents llir program activation scopes g memory s locals)
    (target : llir.method identifier = none ∨
      ∃ method ∈ program.methods, method.identifier = identifier ∧ method.arguments.length = values.length)
    (holds : List.Forall₂ (fun value operand => OperandHolds llir environment locals k' value operand) values operands)
    (fresh : FreshTemporary llir g₀ field) (hk : g₀.temporaryCounter + 1 ≤ k)
    (receives : Receives llir program move activation scopes n g₀.temporaryCounter
      (g.addAssignment (.methodCall identifier operands field)) locals
      (fun value locals' => OperandHolds llir environment locals' k value (.field field)) next) :
    Behaves program move n s ((invoke identifier values memory).andThen next) := by
  obtain ⟨at', world, localsHold⟩ := represents
  have stepped : step llir environment s = callMethod llir environment s (activation.frameAt g locals) activation.callers
      identifier values field := by
    rw [step_of_assignment valid begins at']
    exact congrArg (fun values => callMethod llir environment s _ _ identifier values field) (operands_map holds s _ _)
  refine calls n hn identifier values target s (activation.frameAt g locals) activation.callers
    (.methodCall identifier operands field) memory next at'.status world (assignment_suspended valid begins) stepped
    fun value memory' s' running world' same => ?_
  have at₁ : Executing llir activation g { s' with frames := activation.frameAt g locals :: activation.callers } locals :=
    ⟨running, rfl, False.elim, False.elim⟩
  have holds₁ : MemoryHolds program scopes memory'
      { s' with frames := activation.frameAt g locals :: activation.callers } locals :=
    ⟨⟨world'.globals, world'.calls, world'.strays⟩, by rw [same]; exact localsHold⟩
  refine receives value memory' _ (locals.write llir field 0 value) ⟨?_, ?_⟩ (Kept.write fresh.name locals 0 value)
    (fresh.holds locals hk value)
  · exact at₁.store named _ 0 False.elim fun isGlobal => absurd isGlobal fresh.isLocal
  · exact holds₁.temporary hm fresh _ _ value

end

end

theorem read_found {environment : Environment} {memory : Memory} {identifier : String} {words : List Word} {position : Nat}
    (found : memory.find identifier = some words) {word : Word} (inside : words[position]? = some word) :
    Interpreter.read environment identifier position memory = .done word memory := by
  simp [Interpreter.read, Interpreter.readWord, found, inside, Ending.andThen]

private theorem read_outside {environment : Environment} {memory : Memory} {identifier : String} {words : List Word}
    {position : Nat} (found : memory.find identifier = some words) (outside : words[position]? = none) :
    Interpreter.read environment identifier position memory =
      .done (environment.stray memory.strays) { memory with strays := memory.strays + 1 } := by
  simp [Interpreter.read, Interpreter.readWord, Interpreter.readOutside, found, outside, Ending.andThen]

private theorem generateArguments_length (g : LlirGenerator) (arguments : IrArguments) :
    (generateArguments g arguments).1.length = arguments.length := by
  cases arguments with
  | nil => rfl
  | string string rest => exact congrArg (· + 1) (generateArguments_length g rest)
  | expression expression rest => exact congrArg (· + 1) (generateArguments_length (generateExpression g expression).2 rest)

private theorem CallTyped.argumentsTyped {r : Rules} {c : Context} {identifier : String} {arguments : IrArguments}
    {type : IrDataType} (h : CallTyped r c identifier arguments type) : ImportedArgumentsTyped r c arguments := by
  cases h with
  | imported _ _ _ h => exact h
  | declared _ _ _ h => exact h.imported

/-- The code tests whether the left side is 1. -/
private theorem shortCircuit_action {operator : IrBinaryOperator} (shortCircuit : operator = .or ∨ operator = .and)
    (leftWord : Word) (right other : Interpreter.Action Word) :
    (if operator = .or then if leftWord = 1 then pure leftWord else right
      else if operator = .and then if leftWord = 1 then right else pure leftWord else other) =
      if (if operator = .or then LlirBranchType.equal else .notEqual).holds false leftWord 1 = true then
        pure leftWord else right := by
  obtain rfl | rfl := shortCircuit
  · simp [LlirBranchType.holds]
  · by_cases one : leftWord = 1 <;> simp [LlirBranchType.holds, one]

section
variable {llir : Llir} {environment : Environment} {program : IrProgram} {move : MachineState → MachineState}
  {entering : String → Bindings → Bindings} (moves : Entering llir environment program move entering)
  {invoke : String → List Word → Interpreter.Action Word} {bound : Nat}
  (calls : CallsBehave llir environment program move invoke bound) (lowered : Lowered program llir)
  {activation : Activation} (valid : activation.Valid llir) {c : Context} (fits : ContextFits program c)
include moves calls lowered valid fits

omit moves in
/-- A call, whose arguments do what the interpreter does with them. -/
private theorem behaves_methodCall (g : LlirGenerator) (hm : Matches c.scopes g.symbolTable) {identifier : String}
    {arguments : IrArguments} {type : IrDataType} (typed : CallTyped readyRules c identifier arguments type)
    (begins : (generateMethodCall g identifier arguments).2.Begins activation.blocks) {n : Nat} (hn : n ≤ bound)
    {memory : Memory} {s : MachineState} {locals : Store}
    {next : Word → Memory → Ending Status Memory Word}
    (receives : Receives llir program move activation c.scopes n g.temporaryCounter
      (generateMethodCall g identifier arguments).2 locals
      (fun word locals' => OperandHolds llir environment locals'
        (generateMethodCall g identifier arguments).2.temporaryCounter word (generateMethodCall g identifier arguments).1)
      next)
    (behaves : ∀ next, Receives llir program move activation c.scopes n (g.temporaryCounter + 1)
        (generateArguments g.newLocalTemporary.2 arguments).2 locals (fun values locals' =>
          List.Forall₂ (fun value operand => OperandHolds llir environment locals'
            (generateArguments g.newLocalTemporary.2 arguments).2.temporaryCounter value operand) values
            (generateArguments g.newLocalTemporary.2 arguments).1) next →
      Behaves program move n s ((Interpreter.evaluateArguments environment invoke arguments memory).andThen next)) :
    Behaves program move n s ((Interpreter.evaluateArguments environment invoke arguments memory).andThen
      fun values memory => (invoke identifier values memory).andThen next) := by
  have follows : g.Follows False _ _ := newLocalTemporary_follows g
  have fresh := newLocalTemporary_fresh lowered.named g
  have counter := (generateArguments_grows g.newLocalTemporary.2 arguments).temporaryCounter
  refine behaves _ fun values memory₁ s₁ locals₁ represents₁ kept₁ holds₁ => ?_
  have kept := (Kept.refl g.temporaryCounter locals).trans kept₁ (Nat.le_succ _)
  refine behaves_call valid lowered.named hm calls hn begins represents₁ ?_ holds₁ fresh counter
    (receives.after kept le_rfl)
  cases typed with
  | imported unshadowed found flag h => exact .inl (fits.imported lowered found flag).1
  | declared unshadowed found flag h =>
    obtain ⟨mem, same⟩ := fits.declared lowered found flag
    refine .inr ⟨_, mem, same, ?_⟩
    rw [argumentsTyped_length h, ← generateArguments_length g.newLocalTemporary.2 arguments]
    exact holds₁.length_eq.symm

omit moves calls lowered valid fits

mutual

/-- The lowered expression behaves like the interpreted one. -/
theorem generateExpression_behaves (moves : Entering llir environment program move entering)
    (calls : CallsBehave llir environment program move invoke bound) (lowered : Lowered program llir)
    (valid : activation.Valid llir) (fits : ContextFits program c) (g : LlirGenerator)
    (hm : Matches c.scopes g.symbolTable)
    (expression : IrExpression) {type : IrDataType} (typed : ExpressionTyped readyRules c expression type)
    (begins : (generateExpression g expression).2.Begins activation.blocks) {n : Nat} (hn : n ≤ bound)
    {memory : Memory} {s : MachineState} {locals : Store}
    (represents : Represents llir program activation c.scopes g memory s locals)
    {next : Word → Memory → Ending Status Memory Word}
    (receives : Receives llir program move activation c.scopes n g.temporaryCounter (generateExpression g expression).2
      locals (fun word locals' => OperandHolds llir environment locals'
        (generateExpression g expression).2.temporaryCounter word (generateExpression g expression).1) next) :
    Behaves program move n s ((Interpreter.evaluate environment invoke expression memory).andThen next) := by
  have named := lowered.named
  cases expression with
  | binary operator left right =>
    cases typed with
    | binary op hl hr =>
      rw [Interpreter.evaluate, Execution.bind_apply, Ending.andThen_andThen]
      by_cases shortCircuit : operator = .or ∨ operator = .and
      · have unfolded : generateExpression g (.binary operator left right) =
            let first := generateExpression g.newNonLocalTemporary.2 left
            let branched := (first.2.addMove first.1 g.newNonLocalTemporary.1).branchNew
              (if operator = .or then .equal else .notEqual) false first.1 (.literal 1)
            let second := generateExpression branched.2 right
            (.field g.newNonLocalTemporary.1,
              (second.2.addMove second.1 g.newNonLocalTemporary.1).jumpTo branched.1 branched.1) := by
          rw [generateExpression, if_pos shortCircuit]
        rw [unfolded] at begins receives
        have fresh : FreshTemporary llir g g.newNonLocalTemporary.1 := newTemporary_fresh named g (.inr rfl)
        have followsStart : g.Follows False g.newNonLocalTemporary.2 [] := newNonLocalTemporary_follows g
        have matchesStart := followsStart.matchesScopes hm
        have followsLeft : g.newNonLocalTemporary.2.Follows False _ _ := generateExpression_follows _ matchesStart left hl
        have counter : g.temporaryCounter + 1 ≤ _ :=
          (generateExpression_grows g.newNonLocalTemporary.2 left).temporaryCounter
        have growsStart := (newNonLocalTemporary_grows g).temporaryCounter
        obtain ⟨source, found, recent⟩ := generateExpression_field g.newNonLocalTemporary.2 left
        have represents₀ : Represents llir program activation c.scopes g.newNonLocalTemporary.2 memory s locals :=
          represents
        dsimp only at begins receives
        have behavesLeft (begins) (next : Word → Memory → Ending Status Memory Word) :=
          @generateExpression_behaves moves calls lowered valid fits g.newNonLocalTemporary.2
            matchesStart left _ hl begins n hn memory s locals represents₀ next
        generalize generateExpression g.newNonLocalTemporary.2 left = first at *
        have followsBranch := (followsLeft.andThen (addMove_follows first.2 first.1 g.newNonLocalTemporary.1)).andThen
          (branchNew_follows _ (if operator = .or then .equal else .notEqual) false first.1 (.literal 1))
        have growsBranch := (addMove_grows first.2 first.1 g.newNonLocalTemporary.1).trans
          (branchNew_grows _ (if operator = .or then .equal else .notEqual) false first.1 (.literal 1))
        have beginsMove := (jumpTo_grows _ _ _).begins_of begins
        have beginsRight := (addMove_grows _ _ _).begins_of beginsMove
        have beginsBranch := (generateExpression_grows _ right).begins_of beginsRight
        have growsRight := (generateExpression_grows ((first.2.addMove first.1 g.newNonLocalTemporary.1).branchNew
          (if operator = .or then .equal else .notEqual) false first.1 (.literal 1)).2 right).temporaryCounter
        have older := counter.trans growsRight
        refine behavesLeft (growsBranch.begins_of beginsBranch) _
          fun leftWord memory₁ s₁ locals₁ represents₁ kept₁ holds₁ => ?_
        rw [shortCircuit_action shortCircuit]
        have matches₁ := followsLeft.matchesScopes matchesStart
        refine behaves_choose moves valid named matches₁ beginsBranch represents₁ holds₁ fresh (fun field' result same =>
          fresh.old (same ▸ LlirOperand.field.inj (found.symm.trans result) ▸ recent)) fun s₃ represents₃ => ?_
        have kept : Kept g.temporaryCounter locals (locals₁.write llir g.newNonLocalTemporary.1 0 leftWord) :=
          ((Kept.refl g.temporaryCounter locals).trans kept₁ growsStart).trans
            (Kept.write fresh.name locals₁ 0 leftWord) le_rfl
        have lower : n - 1 ≤ n := Nat.sub_le _ _
        by_cases skips : (if operator = .or then LlirBranchType.equal else .notEqual).holds false leftWord 1 = true
        · rw [if_pos skips] at represents₃ ⊢
          exact (receives leftWord memory₁ s₃ _ represents₃ kept (fresh.holds locals₁ older leftWord)).mono lower
        · rw [if_neg skips] at represents₃ ⊢
          refine generateExpression_behaves moves calls lowered valid fits _
            (followsBranch.matchesScopes matchesStart) right hr beginsRight
            (lower.trans hn) represents₃ fun rightWord memory₄ s₄ locals₄ represents₄ kept₄ holds₄ => ?_
          refine behaves_temporary moves valid named hm beginsMove represents₄ fresh
            (congrArg (s₄.store llir _ _ g.newNonLocalTemporary.1 0) (holds₄.operand s₄ _ _)) fun s₅ represents₅ => ?_
          refine behaves_jump moves valid begins represents₅ fun s₆ represents₆ => ?_
          refine (receives rightWord memory₄ s₆ _ represents₆ ?_ (fresh.holds locals₄ older rightWord)).mono (by omega)
          exact (kept.trans kept₄ (Nat.le_of_succ_le (counter.trans growsBranch.temporaryCounter))).trans
            (Kept.write fresh.name locals₄ 0 rightWord) le_rfl
      · have unfolded : generateExpression g (.binary operator left right) =
            let first := generateExpression g left
            let second := generateExpression first.2 right
            (.field second.2.newLocalTemporary.1, second.2.newLocalTemporary.2.addAssignment
              (.binary (irOperatorToAssignmentType operator) first.1 second.1 second.2.newLocalTemporary.1)) := by
          rw [generateExpression, if_neg shortCircuit]
        rw [unfolded] at begins receives
        have follows : g.Follows False _ _ := generateExpression_follows g hm left hl
        have growsLeft := generateExpression_grows g left
        have growsRight := generateExpression_grows (generateExpression g left).2 right
        have beginsRight := (newLocalTemporary_grows _).begins_of ((addAssignment_grows _ _).begins_of begins)
        refine generateExpression_behaves moves calls lowered valid fits g hm left hl
          (growsRight.begins_of beginsRight) hn represents
          fun leftWord memory₁ s₁ locals₁ represents₁ kept₁ holds₁ => ?_
        rw [if_neg (not_or.mp shortCircuit).1, if_neg (not_or.mp shortCircuit).2, Execution.bind_apply,
          Ending.andThen_andThen]
        refine generateExpression_behaves moves calls lowered valid fits _ (follows.matchesScopes hm) right hr
          beginsRight hn represents₁
          fun rightWord memory₂ s₂ locals₂ represents₂ kept₂ holds₂ => ?_
        exact behaves_binary moves valid named hm shortCircuit begins represents₂
          (holds₁.kept kept₂ growsRight.temporaryCounter) holds₂ le_rfl
          (receives.after (kept₁.trans kept₂ growsLeft.temporaryCounter)
            (growsLeft.temporaryCounter.trans growsRight.temporaryCounter))
  | not expression =>
    cases typed with
    | not h =>
      rw [Interpreter.evaluate, Execution.bind_apply, Ending.andThen_andThen]
      have grows := (newLocalTemporary_grows (generateExpression g expression).2).trans (addAssignment_grows _
        (.unary .not (generateExpression g expression).1 (generateExpression g expression).2.newLocalTemporary.1))
      refine generateExpression_behaves moves calls lowered valid fits g hm expression h (grows.begins_of begins) hn
        represents
        fun word memory₁ s₁ locals₁ represents₁ kept₁ holds₁ => ?_
      rw [← beq_eq_decide]
      exact behaves_unary moves valid named hm begins represents₁ (holds₁.operand s₁ _ _) le_rfl
        (receives.after kept₁ (generateExpression_grows g expression).temporaryCounter)
  | negate expression =>
    cases typed with
    | negate h =>
      rw [Interpreter.evaluate, Execution.bind_apply, Ending.andThen_andThen]
      have grows := (newLocalTemporary_grows (generateExpression g expression).2).trans (addAssignment_grows _
        (.unary .negate (generateExpression g expression).1 (generateExpression g expression).2.newLocalTemporary.1))
      refine generateExpression_behaves moves calls lowered valid fits g hm expression h (grows.begins_of begins) hn
        represents
        fun word memory₁ s₁ locals₁ represents₁ kept₁ holds₁ => ?_
      exact behaves_unary moves valid named hm begins represents₁ (holds₁.operand s₁ _ _) le_rfl
        (receives.after kept₁ (generateExpression_grows g expression).temporaryCounter)
  | len identifier length =>
    rw [Interpreter.evaluate]
    exact behaves_unary moves valid named hm begins represents rfl le_rfl receives
  | methodCall identifier arguments =>
    cases typed with
    | methodCall h value =>
      rw [Interpreter.evaluate, Execution.bind_apply, Ending.andThen_andThen]
      have represents₀ : Represents llir program activation c.scopes g.newLocalTemporary.2 memory s locals := represents
      have follows : g.Follows False _ _ := newLocalTemporary_follows g
      exact behaves_methodCall calls lowered valid fits g hm h begins hn receives fun next receives =>
        generateArguments_behaves moves calls lowered valid fits _ (follows.matchesScopes hm) arguments h.argumentsTyped
          ((addAssignment_grows _ _).begins_of begins) hn represents₀ receives
  | literal literal =>
    cases typed with
    | literal h =>
      rw [Interpreter.evaluate, ← literalToInt64_eq]
      exact behaves_unary moves valid named hm begins (represents.of_block (assert_currentBlock g _)) rfl le_rfl
        (receives.after (.refl _ _) (assert_grows g _).temporaryCounter)
  | location location =>
    cases typed with
    | location h =>
      rw [Interpreter.evaluate]
      exact generateLocation_behaves moves calls lowered valid fits g hm location h begins hn represents receives

/-- The lowered location behaves like the interpreted one. -/
private theorem generateLocation_behaves (moves : Entering llir environment program move entering)
    (calls : CallsBehave llir environment program move invoke bound) (lowered : Lowered program llir)
    (valid : activation.Valid llir) (fits : ContextFits program c) (g : LlirGenerator)
    (hm : Matches c.scopes g.symbolTable)
    (location : IrLocation)
    {field : IrField} {type : IrDataType} (typed : LocationTyped readyRules c location field type)
    (begins : (generateLocation g location).2.Begins activation.blocks) {n : Nat} (hn : n ≤ bound) {memory : Memory}
    {s : MachineState} {locals : Store} (represents : Represents llir program activation c.scopes g memory s locals)
    {next : Word → Memory → Ending Status Memory Word}
    (receives : Receives llir program move activation c.scopes n g.temporaryCounter (generateLocation g location).2
      locals (fun word locals' => OperandHolds llir environment locals' (generateLocation g location).2.temporaryCounter
        word (generateLocation g location).1) next) :
    Behaves program move n s ((Interpreter.evaluateLocation environment invoke location memory).andThen next) := by
  cases location with
  | scalar node identifier =>
    cases typed with
    | scalar found =>
      obtain ⟨level, -, result, stored, ready⟩ := lookup_found hm (.scalar node identifier) found
      change storage c.scopes identifier = _ at stored
      obtain ⟨words, looked, holds⟩ := represents.holds.find lowered fits.bottom stored
      rw [Interpreter.evaluateLocation]
      cases first : words[0]? with
      | none => exact absurd first (holds.first ready.positive)
      | some word =>
        rw [read_found looked first]
        have read : s.operand llir environment (activation.frameAt (g.lookup (.scalar node identifier)).2 locals)
            (.field (g.lookup (.scalar node identifier)).1) = word := by
          have value := holds.word 0 word first
          rw [result, ← value, MachineState.operand, MachineState.cell, Activation.frameAt_locals]
          split <;> rfl
        exact behaves_unary moves valid lowered.named hm begins (represents.of_block (lookup_currentBlock g _)) read le_rfl
          (receives.after (.refl _ _) (lookup_temporaryCounter g _).ge)
  | element node identifier index =>
    cases typed with
    | element found array h =>
      obtain ⟨level, -, result, stored, -⟩ := lookup_found hm (.element node identifier index) found
      change storage c.scopes identifier = _ at stored
      have follows : g.Follows False _ _ := (lookup_follows hm (.element node identifier index) found).andThen
        (newLocalTemporary_follows _)
      have fresh := newLocalTemporary_fresh lowered.named (g.lookup (.element node identifier index)).2
      have counter := (generateExpression_grows (g.lookup (.element node identifier index)).2.newLocalTemporary.2
        index).temporaryCounter
      have older := (lookup_temporaryCounter g (.element node identifier index)).ge
      have found₀ : Represents llir program activation c.scopes (g.lookup (.element node identifier index)).2 memory s
          locals := represents.of_block (lookup_currentBlock g _)
      have represents₀ : Represents llir program activation c.scopes
          (g.lookup (.element node identifier index)).2.newLocalTemporary.2 memory s locals := found₀
      rw [Interpreter.evaluateLocation, Execution.bind_apply, Ending.andThen_andThen]
      refine generateExpression_behaves moves calls lowered valid fits _ (follows.matchesScopes hm) index h
        ((addAssignment_grows _ _).begins_of begins) hn
        represents₀ fun position memory₁ s₁ locals₁ represents₁ kept₁ holds₁ => ?_
      obtain ⟨words, looked, holds⟩ := represents₁.holds.find lowered fits.bottom stored
      rw [← result] at holds
      have kept := (Kept.refl g.temporaryCounter locals).trans kept₁ (older.trans (Nat.le_succ _))
      cases inside : words[position.toNat]? with
      | none =>
        rw [read_outside looked inside]
        exact behaves_stray moves valid lowered.named hm begins represents₁ holds₁ holds fresh counter inside
          (receives.after kept older)
      | some word =>
        rw [read_found looked inside]
        exact behaves_access moves valid lowered.named hm begins represents₁ holds₁ holds fresh counter inside
          (receives.after kept older)

/-- The lowered arguments behave like the interpreted ones. -/
private theorem generateArguments_behaves (moves : Entering llir environment program move entering)
    (calls : CallsBehave llir environment program move invoke bound) (lowered : Lowered program llir)
    (valid : activation.Valid llir) (fits : ContextFits program c) (g : LlirGenerator)
    (hm : Matches c.scopes g.symbolTable)
    (arguments : IrArguments)
    (typed : ImportedArgumentsTyped readyRules c arguments)
    (begins : (generateArguments g arguments).2.Begins activation.blocks) {n : Nat} (hn : n ≤ bound) {memory : Memory}
    {s : MachineState} {locals : Store} (represents : Represents llir program activation c.scopes g memory s locals)
    {next : List Word → Memory → Ending Status Memory Word}
    (receives : Receives llir program move activation c.scopes n g.temporaryCounter (generateArguments g arguments).2
      locals (fun values locals' => List.Forall₂ (fun value operand => OperandHolds llir environment locals'
        (generateArguments g arguments).2.temporaryCounter value operand) values (generateArguments g arguments).1) next) :
    Behaves program move n s ((Interpreter.evaluateArguments environment invoke arguments memory).andThen next) := by
  cases arguments with
  | nil => exact receives [] memory s locals represents (.refl _ _) .nil
  | string string rest =>
    cases typed with
    | string h =>
      rw [Interpreter.evaluateArguments, Execution.bind_apply, Ending.andThen_andThen]
      refine generateArguments_behaves moves calls lowered valid fits g hm rest h begins hn represents
        fun values memory₁ s₁ locals₁ represents₁ kept₁ holds₁ => ?_
      exact receives _ memory₁ s₁ locals₁ represents₁ kept₁ (.cons rfl holds₁)
  | expression expression rest =>
    cases typed with
    | expression he h =>
      rw [Interpreter.evaluateArguments, Execution.bind_apply, Ending.andThen_andThen]
      have follows : g.Follows False _ _ := generateExpression_follows g hm expression he
      have growsFirst := (generateExpression_grows g expression).temporaryCounter
      have growsRest := generateArguments_grows (generateExpression g expression).2 rest
      refine generateExpression_behaves moves calls lowered valid fits g hm expression he (growsRest.begins_of begins)
        hn represents
        fun word memory₁ s₁ locals₁ represents₁ kept₁ holds₁ => ?_
      rw [Execution.bind_apply, Ending.andThen_andThen]
      refine generateArguments_behaves moves calls lowered valid fits _ (follows.matchesScopes hm) rest h begins hn
        represents₁
        fun values memory₂ s₂ locals₂ represents₂ kept₂ holds₂ => ?_
      exact receives _ memory₂ s₂ locals₂ represents₂ (kept₁.trans kept₂ growsFirst)
        (.cons (holds₁.kept kept₂ growsRest.temporaryCounter) holds₂)

end

include moves calls lowered valid fits

/-- The lowered call behaves like the interpreted one. -/
theorem generateCall_behaves (g : LlirGenerator) (hm : Matches c.scopes g.symbolTable) {identifier : String}
    {arguments : IrArguments} {type : IrDataType} (typed : CallTyped readyRules c identifier arguments type)
    (begins : (generateMethodCall g identifier arguments).2.Begins activation.blocks) {n : Nat} (hn : n ≤ bound)
    {memory : Memory} {s : MachineState} {locals : Store}
    (represents : Represents llir program activation c.scopes g memory s locals)
    {next : Word → Memory → Ending Status Memory Word}
    (receives : Receives llir program move activation c.scopes n g.temporaryCounter
      (generateMethodCall g identifier arguments).2 locals
      (fun word locals' => OperandHolds llir environment locals'
        (generateMethodCall g identifier arguments).2.temporaryCounter word (generateMethodCall g identifier arguments).1)
      next) :
    Behaves program move n s ((Interpreter.evaluateArguments environment invoke arguments memory).andThen
      fun values memory => (invoke identifier values memory).andThen next) := by
  have represents₀ : Represents llir program activation c.scopes g.newLocalTemporary.2 memory s locals := represents
  have follows : g.Follows False _ _ := newLocalTemporary_follows g
  exact behaves_methodCall calls lowered valid fits g hm typed begins hn receives fun next receives =>
    generateArguments_behaves moves calls lowered valid fits _ (follows.matchesScopes hm) arguments typed.argumentsTyped
      ((addAssignment_grows _ _).begins_of begins) hn represents₀ receives

end

end Roast
