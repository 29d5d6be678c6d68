import Roast.Assembly.InterpretedAssignments
import Roast.Assembly.SafeStatements

/-! The code of statements does what the interpreter does with them. A loop does so for a number of steps because each
turn takes a step. -/
namespace Roast
open LlirGenerator Systems

section
variable {llir : Llir} {environment : Environment} {program : IrProgram} {move : MachineState → MachineState}
  {entering : String → Bindings → Bindings} {activation : Activation} {scope : List IrField}
  {scopes : List (List IrField)} {memory : Memory} {s : MachineState} {locals : Store} {n : Nat}
  {loop : Option (Nat × Nat)} {next : Exit → Memory → Ending Status Memory Word}

structure Exits (llir : Llir) (program : IrProgram) (move : MachineState → MachineState) (activation : Activation)
    (scopes : List (List IrField)) (n : Nat) (loop : Option (Nat × Nat))
    (next : Exit → Memory → Ending Status Memory Word) : Prop where
  breaks : ∀ blocks ∈ loop, ∀ memory s locals, RepresentsAt llir program activation scopes blocks.1 0 memory s locals →
    Behaves program move n s (next .breaks memory)
  continues : ∀ blocks ∈ loop, ∀ memory s locals,
    RepresentsAt llir program activation scopes blocks.2 0 memory s locals →
      Behaves program move n s (next .continues memory)
  returns : ∀ value memory s, s.status = .running → WorldHolds program memory s →
    Behaves program move n (returnValue llir s activation.callers value) (next (.returns value) memory)

theorem Exits.mono {m : Nat} (h : Exits llir program move activation scopes n loop next) (hm : m ≤ n) :
    Exits llir program move activation scopes m loop next :=
  ⟨fun blocks mem memory s locals represents => (h.breaks blocks mem memory s locals represents).mono hm,
    fun blocks mem memory s locals represents => (h.continues blocks mem memory s locals represents).mono hm,
    fun value memory s running world => (h.returns value memory s running world).mono hm⟩

/-- Behind a scope its declarations are forgotten. -/
theorem RepresentsAt.pop {block index : Nat} (nonempty : scopes ≠ [])
    (h : RepresentsAt llir program activation (scope :: scopes) block index memory s locals) :
    RepresentsAt llir program activation scopes block index memory.pop s locals := by
  obtain ⟨at', world, holds⟩ := h
  refine ⟨at', ⟨world.globals, world.calls, world.strays⟩, ?_⟩
  unfold Memory.pop
  cases bindings : memory.locals with
  | nil =>
    rw [bindings] at holds
    cases scopes with
    | nil => exact absurd rfl nonempty
    | cons => exact holds.elim
  | cons first rest =>
    rw [bindings] at holds
    exact holds.2

/-- A block is left together with its scope. -/
theorem Exits.enter (nonempty : scopes ≠ []) (h : Exits llir program move activation scopes n loop next) :
    Exits llir program move activation (scope :: scopes) n loop fun exit memory => next exit memory.pop :=
  ⟨fun blocks mem memory s locals represents => h.breaks blocks mem memory.pop s locals (represents.pop nonempty),
    fun blocks mem memory s locals represents => h.continues blocks mem memory.pop s locals (represents.pop nonempty),
    fun value memory s running world => h.returns value memory.pop s running ⟨world.globals, world.calls, world.strays⟩⟩

theorem RepresentsAt.push {block index : Nat}
    (h : RepresentsAt llir program activation scopes block index memory s locals) :
    RepresentsAt llir program activation ([] :: scopes) block index (memory.push []) s locals := by
  obtain ⟨at', world, holds⟩ := h
  exact ⟨at', ⟨world.globals, world.calls, world.strays⟩, .nil, holds⟩

end

section
variable {llir : Llir} {environment : Environment} {program : IrProgram} {move : MachineState → MachineState}
  {entering : String → Bindings → Bindings} (moves : Entering llir environment program move entering)
  {invoke : String → List Word → Interpreter.Action Word} {bound : Nat}
  (calls : CallsBehave llir environment program move invoke bound) (lowered : Lowered program llir)
  {activation : Activation} (valid : activation.Valid llir) {c : Context} (fits : ContextFits program c)
include moves calls lowered valid fits

/-- A condition is evaluated and decides between two blocks. -/
private theorem condition_behaves (g : LlirGenerator) (hm : Matches c.scopes g.symbolTable) {condition : IrExpression}
    (hc : ExpressionTyped readyRules c condition .bool) {trueBlock falseBlock : Nat} (g' : LlirGenerator)
    (same : g'.blocks = (generateExpression g condition).2.blocks)
    (current : g'.currentBlock = (generateExpression g condition).2.currentBlock)
    (begins : (g'.branchTo ⟨.equal, false, (generateExpression g condition).1, .literal 0, trueBlock,
      falseBlock⟩).Begins activation.blocks) {n : Nat} (hn : n ≤ bound) {memory : Memory} {s : MachineState}
    {locals : Store} (represents : Represents llir program activation c.scopes g memory s locals)
    {next : Word → Memory → Ending Status Memory Word}
    (receives : ∀ word memory s locals, RepresentsAt llir program activation c.scopes
      (if word = 0 then falseBlock else trueBlock) 0 memory s locals →
        Behaves program move (n - 1) s (next word memory)) :
    Behaves program move n s ((Interpreter.evaluate environment invoke condition memory).andThen next) := by
  have beginsCondition : (generateExpression g condition).2.Begins activation.blocks := by
    obtain ⟨block, rest, blocks, growth⟩ := (branchTo_grows _ _).begins_of begins
    exact ⟨block, rest, same ▸ blocks, current ▸ growth⟩
  refine generateExpression_behaves moves calls lowered valid fits g hm condition hc beginsCondition hn represents
    fun word memory₁ s₁ locals₁ represents₁ kept₁ holds₁ => ?_
  refine behaves_branch moves valid begins (represents₁.of_block current) (holds₁.operand s₁ _ _) rfl
    fun s₂ represents₂ => ?_
  have reached : RepresentsAt llir program activation c.scopes
      (if (word == 0) = true then falseBlock else trueBlock) 0 memory₁ s₂ locals₁ := represents₂
  simp only [beq_iff_eq] at reached
  exact receives word memory₁ s₂ locals₁ reached

/-- A loop: the condition is evaluated before every turn. -/
private theorem loop_behaves (entered : LlirGenerator) (hm : Matches c.scopes entered.symbolTable)
    {condition : IrExpression}
    (hc : ExpressionTyped readyRules c condition .bool) {conditionBlock loopBlock endBlock : Nat}
    (block : entered.currentBlock.id = conditionBlock) (empty : entered.currentBlock.assignments.length = 0)
    (begins : ((generateExpression entered condition).2.branchTo ⟨.equal, false, (generateExpression entered condition).1,
      .literal 0, loopBlock, endBlock⟩).Begins activation.blocks) {body : Interpreter.Action Exit}
    {update : Interpreter.Action Unit} {next : Exit → Memory → Ending Status Memory Word} (turns : Nat) {n : Nat}
    (enough : n ≤ turns) (hn : n ≤ bound)
    (leave : ∀ memory s locals, RepresentsAt llir program activation c.scopes endBlock 0 memory s locals →
      Behaves program move n s (next .next memory))
    (turn : ∀ k ≤ n, ∀ again : Interpreter.Action Exit,
      (∀ memory s locals, RepresentsAt llir program activation c.scopes conditionBlock 0 memory s locals →
        Behaves program move k s ((again memory).andThen next)) →
      ∀ memory s locals, RepresentsAt llir program activation c.scopes loopBlock 0 memory s locals →
        Behaves program move k s ((body memory).andThen fun exit memory =>
          (Interpreter.afterTurn (do update; again) exit memory).andThen next))
    (memory : Memory) (s : MachineState) (locals : Store)
    (represents : RepresentsAt llir program activation c.scopes conditionBlock 0 memory s locals) :
    Behaves program move n s ((Interpreter.executeLoop (Interpreter.evaluate environment invoke condition) body update
      turns memory).andThen next) := by
  induction turns generalizing n memory s locals with
  | zero =>
    obtain rfl : n = 0 := Nat.le_zero.mp enough
    exact behaves_unfinished represents.point.status represents.holds.toWorldHolds
  | succ turns ih =>
    rw [Interpreter.executeLoop, Execution.bind_apply, Ending.andThen_andThen]
    have start : Represents llir program activation c.scopes entered memory s locals := by
      unfold Represents
      rwa [block, empty]
    refine condition_behaves moves calls lowered valid fits entered hm hc _ rfl rfl begins hn start
      fun word memory₁ s₁ locals₁ represents₁ => ?_
    by_cases zero : word = 0
    · rw [if_pos zero] at represents₁ ⊢
      exact (leave memory₁ s₁ locals₁ represents₁).mono (Nat.sub_le n 1)
    · rw [if_neg zero] at represents₁ ⊢
      rw [Execution.bind_apply, Ending.andThen_andThen]
      refine turn (n - 1) (Nat.sub_le n 1) _ ?_ memory₁ s₁ locals₁ represents₁
      refine ih (by omega) (by omega) (fun memory s locals represents => ?_) fun k hk => turn k (by omega)
      exact (leave memory s locals represents).mono (Nat.sub_le n 1)

end

section
variable {llir : Llir} {environment : Environment} {program : IrProgram} {move : MachineState → MachineState}
  {entering : String → Bindings → Bindings} (moves : Entering llir environment program move entering)
  {invoke : String → List Word → Interpreter.Action Word} {bound : Nat}
  (calls : CallsBehave llir environment program move invoke bound) (lowered : Lowered program llir)
  {activation : Activation} (valid : activation.Valid llir) {returnType : IrDataType}

include moves valid in
/-- A value is returned to the caller. -/
theorem behaves_return {g : LlirGenerator} {source : LlirOperand}
    (closed : (g.setTerminal (.llirReturn source)).currentBlock ∈ activation.blocks) {scopes : List (List IrField)} {n : Nat}
    {memory : Memory} {s : MachineState} {locals : Store}
    (represents : Represents llir program activation scopes g memory s locals) {k : Nat} {value : Word}
    (holds : OperandHolds llir environment locals k value source) {loop : Option (Nat × Nat)}
    {next : Exit → Memory → Ending Status Memory Word} (exits : Exits llir program move activation scopes n loop next) :
    Behaves program move n s (next (.returns value) memory) := by
  have steps : stepTerminal llir environment s (activation.frameAt g locals) activation.callers (.llirReturn source) =
      returnValue llir s activation.callers value :=
    congrArg (returnValue llir s activation.callers) (holds.operand s _ _)
  refine behaves_terminal moves valid closed represents.point steps ?_ ?_
  · unfold returnValue
    split
    · rfl
    · split
      · exact store_activations ..
      · rfl
  · exact (exits.returns value memory s represents.point.status represents.holds.toWorldHolds).mono (Nat.sub_le n 1)

include moves calls lowered valid

/-- The lowered return behaves like the interpreted one. -/
private theorem generateReturnStatement_behaves (g : LlirGenerator) {c : Context} (fits : ContextFits program c)
    (hm : Matches c.scopes g.symbolTable) {expression : Option IrExpression}
    (typed : ReturnTyped readyRules c returnType expression)
    (begins : (generateReturnStatement g expression).Begins activation.blocks) {n : Nat} (hn : n ≤ bound)
    {memory : Memory} {s : MachineState} {locals : Store}
    (represents : Represents llir program activation c.scopes g memory s locals) {loop : Option (Nat × Nat)}
    {next : Exit → Memory → Ending Status Memory Word}
    (exits : Exits llir program move activation c.scopes n loop next) :
    Behaves program move n s ((Interpreter.execute environment invoke bound (.returnStatement expression) memory).andThen
      next) := by
  have closed : ((generateReturnValue g expression).2.setTerminal
      (.llirReturn (generateReturnValue g expression).1)).currentBlock ∈ activation.blocks := begins.closed
  have begins' := (leave_grows _ _).begins_of begins
  cases typed with
  | none void =>
    rw [Interpreter.execute]
    exact behaves_return moves valid closed represents (k := 0) rfl exits
  | @some expression h =>
    rw [Interpreter.execute, Execution.bind_apply, Ending.andThen_andThen]
    refine generateExpression_behaves moves calls lowered valid fits g hm expression h begins' hn represents
      fun word memory₁ s₁ locals₁ represents₁ kept₁ holds₁ => ?_
    exact behaves_return moves valid closed represents₁ holds₁ exits

omit moves calls lowered valid

mutual

/-- The lowered statement behaves like the interpreted one. -/
private theorem generateStatement_behaves (moves : Entering llir environment program move entering)
    (calls : CallsBehave llir environment program move invoke bound) (lowered : Lowered program llir)
    (valid : activation.Valid llir) (g : LlirGenerator) (loop : Option (Nat × Nat)) (statement : IrStatement)
    {c : Context} {inLoop : Prop} (fits : ContextFits program c) (hm : Matches c.scopes g.symbolTable)
    (hl : g.InnermostLoop loop inLoop) (typed : StatementTyped readyRules returnType c inLoop statement)
    (begins : (generateStatement g loop statement).Begins activation.blocks)
    (succeeds : (generateStatement g loop statement).failed = false) {n : Nat} (hn : n ≤ bound) {memory : Memory}
    {s : MachineState} {locals : Store} (represents : Represents llir program activation c.scopes g memory s locals)
    {next : Exit → Memory → Ending Status Memory Word}
    (exits : Exits llir program move activation c.scopes n loop next)
    (falls : ∀ memory s locals, Represents llir program activation c.scopes (generateStatement g loop statement) memory s
      locals → Behaves program move n s (next .next memory)) :
    Behaves program move n s ((Interpreter.execute environment invoke bound statement memory).andThen next) := by
  have lower : n - 1 ≤ n := Nat.sub_le n 1
  cases statement with
  | assignment assignment =>
    cases typed with
    | assignment h =>
      rw [Interpreter.execute, Execution.bind_apply, Ending.andThen_andThen]
      exact generateAssignment_behaves moves calls lowered valid fits g hm hn represents h begins falls
  | methodCall identifier arguments =>
    cases typed with
    | methodCall h =>
      rw [Interpreter.execute, Execution.bind_apply, Ending.andThen_andThen]
      exact generateMethodCall_behaves moves calls lowered valid fits g hm hn represents h begins falls
  | ifStatement condition ifBlock =>
    cases typed with
    | ifStatement hc hb =>
      have follows : g.Follows False _ _ := (generateExpression_follows g hm condition hc).andThen
        (branchNew_follows _ .equal false (generateExpression g condition).1 (.literal 0))
      have growsBlock := generateBlock_grows ((generateExpression g condition).2.branchNew .equal false
        (generateExpression g condition).1 (.literal 0)).2 loop true ifBlock
      have beginsBlock := (jumpTo_grows _ _ _).begins_of begins
      rw [Interpreter.execute, Execution.bind_apply, Ending.andThen_andThen]
      refine condition_behaves moves calls lowered valid fits g hm hc
        (generateExpression g condition).2.newBlock.2.newBlock.2 rfl rfl (growsBlock.begins_of beginsBlock) hn represents
        fun word memory₁ s₁ locals₁ represents₁ => ?_
      by_cases zero : word = 0
      · rw [if_pos zero] at represents₁ ⊢
        exact (falls memory₁ s₁ locals₁ represents₁).mono lower
      · rw [if_neg zero] at represents₁ ⊢
        refine generateBlock_behaves moves calls lowered valid _ loop ifBlock fits (follows.matchesScopes hm)
          (follows.innermostLoop hl) hb beginsBlock
          succeeds (lower.trans hn) represents₁ (exits.mono lower) fun memory₂ s₂ locals₂ represents₂ => ?_
        refine behaves_jump moves valid begins represents₂ fun s₃ represents₃ => ?_
        exact (falls memory₂ s₃ locals₂ represents₃).mono (by omega)
  | ifElseStatement condition ifBlock elseBlock =>
    cases typed with
    | ifElseStatement hc hb hb' =>
      have follows : g.Follows False _ _ := (generateExpression_follows g hm condition hc).andThen
        (branchNew_follows _ .equal false (generateExpression g condition).1 (.literal 0))
      have followsIf := follows.trans (generateBlock_follows _ loop ifBlock (follows.matchesScopes hm)
        (follows.innermostLoop hl) hb False.elim)
      have followsElse (target next : Nat) := (followsIf.andThen (newBlock_follows _)).andThen (jumpTo_follows _ target next)
      have beginsElse := (jumpTo_grows _ _ _).begins_of begins
      have succeedsElse := (jumpTo_grows _ _ _).succeeds succeeds
      have beginsJump := (generateBlock_grows _ loop true elseBlock).begins_of beginsElse
      have succeedsJump := (generateBlock_grows _ loop true elseBlock).succeeds succeedsElse
      have growsJump (target next : Nat) := (newBlock_grows (generateBlock ((generateExpression g condition).2.branchNew
        .equal false (generateExpression g condition).1 (.literal 0)).2 loop true ifBlock)).trans
          (jumpTo_grows _ target next)
      have beginsIf := (growsJump _ _).begins_of beginsJump
      have succeedsIf := (growsJump _ _).succeeds succeedsJump
      rw [Interpreter.execute, Execution.bind_apply, Ending.andThen_andThen]
      refine condition_behaves moves calls lowered valid fits g hm hc
        (generateExpression g condition).2.newBlock.2.newBlock.2 rfl rfl
        ((generateBlock_grows _ loop true ifBlock).begins_of beginsIf) hn represents
        fun word memory₁ s₁ locals₁ represents₁ => ?_
      by_cases zero : word = 0
      · rw [if_pos zero] at represents₁ ⊢
        refine generateBlock_behaves moves calls lowered valid _ loop elseBlock fits ((followsElse _ _).matchesScopes hm)
          ((followsElse _ _).innermostLoop hl) hb' beginsElse succeedsElse (lower.trans hn) represents₁ (exits.mono lower)
          fun memory₂ s₂ locals₂ represents₂ => ?_
        refine behaves_jump moves valid begins represents₂ fun s₃ represents₃ => ?_
        exact (falls memory₂ s₃ locals₂ represents₃).mono (by omega)
      · rw [if_neg zero] at represents₁ ⊢
        refine generateBlock_behaves moves calls lowered valid _ loop ifBlock fits (follows.matchesScopes hm)
          (follows.innermostLoop hl) hb beginsIf
          succeedsIf (lower.trans hn) represents₁ (exits.mono lower) fun memory₂ s₂ locals₂ represents₂ => ?_
        refine behaves_jump moves valid beginsJump represents₂ fun s₃ represents₃ => ?_
        exact (falls memory₂ s₃ locals₂ represents₃).mono (by omega)
  | forStatement initial condition update block =>
    cases typed with
    | forStatement hi hc hu hb =>
      let conditionBlock := (generateAssignment g initial).blockCounter
      let started := (generateAssignment g initial).newBlock.2.newBlock.2.newBlock.2.newBlock.2
      let entered := (started.pushLoop (conditionBlock + 3) (conditionBlock + 2)).jumpTo conditionBlock conditionBlock
      let tested := (generateExpression entered condition).2.branchTo
        ⟨.equal, false, (generateExpression entered condition).1, .literal 0, conditionBlock + 1, conditionBlock + 3⟩
      let looped := generateBlock tested (some (conditionBlock + 3, conditionBlock + 2)) true block
      let updating := looped.jumpTo (conditionBlock + 2) (conditionBlock + 2)
      let updated := generateForUpdate updating update
      let finished := updated.jumpTo conditionBlock (conditionBlock + 3)
      have first : g.Follows False _ _ := generateAssignment_follows g hm hi
      have before : g.Follows False started _ := (((first.andThen (newBlock_follows _)).andThen
        (newBlock_follows _)).andThen (newBlock_follows _)).andThen (newBlock_follows _)
      have pushed := before.matchesScopes hm
      have head : Follows False (started.pushLoop _ _) tested _ := loopHead_follows started pushed hc conditionBlock
        (conditionBlock + 1) (conditionBlock + 3) (conditionBlock + 2)
      have body : Follows False (started.pushLoop _ _) updating _ := (loopBlock_follows started pushed hc conditionBlock
        (conditionBlock + 1) (conditionBlock + 3) (conditionBlock + 2)
        fun g hm hl => generateBlock_follows g _ block hm hl hb False.elim).andThen (jumpTo_follows looped _ _)
      have beginsFinished : finished.Begins activation.blocks := (popLoop_grows finished).begins_of begins
      have succeedsFinished : finished.failed = false := (popLoop_grows finished).succeeds succeeds
      have beginsUpdated := (jumpTo_grows updated _ _).begins_of beginsFinished
      have beginsUpdating := (generateForUpdate_grows updating update).begins_of beginsUpdated
      have growsLooped := (jumpTo_grows looped (conditionBlock + 2) (conditionBlock + 2)).trans
        ((generateForUpdate_grows updating update).trans (jumpTo_grows updated conditionBlock (conditionBlock + 3)))
      have beginsLooped := growsLooped.begins_of beginsFinished
      have beginsTested : tested.Begins activation.blocks :=
        (generateBlock_grows tested _ true block).begins_of beginsLooped
      have beginsEntered : entered.Begins activation.blocks :=
        ((generateExpression_grows entered condition).trans (branchTo_grows _ _)).begins_of beginsTested
      have beginsInitial : (generateAssignment g initial).Begins activation.blocks := beginsEntered.jumped
      have left : finished.popLoop.currentBlock = finished.currentBlock := assert_currentBlock _ _
      have leave (memory : Memory) (s : MachineState) (locals : Store)
          (represents : RepresentsAt llir program activation c.scopes (conditionBlock + 3) 0 memory s locals) :
          Behaves program move n s (next .next memory) :=
        falls memory s locals (RepresentsAt.of_block (g := finished) represents left)
      rw [Interpreter.execute, Execution.bind_apply, Ending.andThen_andThen]
      refine generateAssignment_behaves moves calls lowered valid fits g hm hn represents hi beginsInitial
        fun memory₀ s₀ locals₀ represents₀ => ?_
      refine behaves_jump moves valid beginsEntered represents₀ fun s₁ represents₁ => ?_
      refine (loop_behaves moves calls lowered valid fits entered pushed hc rfl rfl beginsTested bound hn hn leave
        (fun k hk again turns memory₂ s₂ locals₂ represents₂ => ?_) memory₀ s₁ locals₀ represents₁).mono lower
      -- `continue` goes to the update, which goes back to the condition
      have resumed (memory : Memory) (s : MachineState) (locals : Store)
          (represents : RepresentsAt llir program activation c.scopes (conditionBlock + 2) 0 memory s locals) :
          Behaves program move k s (((do Interpreter.executeForUpdate environment invoke update; again :
            Interpreter.Action Exit) memory).andThen next) := by
        rw [Execution.bind_apply, Ending.andThen_andThen]
        refine generateForUpdate_behaves moves calls lowered valid fits updating (body.matchesScopes pushed) (hk.trans hn)
          represents hu beginsUpdated fun memory₄ s₄ locals₄ represents₄ => ?_
        exact behaves_jump moves valid beginsFinished represents₄ fun s₅ represents₅ =>
          (turns memory₄ s₅ locals₄ represents₅).mono (Nat.sub_le k 1)
      refine generateBlock_behaves moves calls lowered valid tested _ block fits (head.matchesScopes pushed)
        (head.innermostLoop fun _ => ⟨_, rfl, rfl, rfl⟩) hb beginsLooped (growsLooped.succeeds succeedsFinished)
        (hk.trans hn) represents₂ ⟨?_, ?_, fun value memory s running world =>
          (exits.returns value memory s running world).mono hk⟩ fun memory₃ s₃ locals₃ represents₃ => ?_
      · rintro _ ⟨rfl⟩
        exact fun memory s locals represents => (leave memory s locals represents).mono hk
      · rintro _ ⟨rfl⟩
        exact resumed
      · exact behaves_jump moves valid beginsUpdating represents₃ fun s₄ represents₄ =>
          (resumed memory₃ s₄ locals₃ represents₄).mono (Nat.sub_le k 1)
  | whileStatement condition block =>
    cases typed with
    | whileStatement hc hb =>
      let conditionBlock := g.blockCounter
      let started := g.newBlock.2.newBlock.2.newBlock.2
      let entered := (started.pushLoop (conditionBlock + 2) conditionBlock).jumpTo conditionBlock conditionBlock
      let tested := (generateExpression entered condition).2.branchTo
        ⟨.equal, false, (generateExpression entered condition).1, .literal 0, conditionBlock + 1, conditionBlock + 2⟩
      let looped := generateBlock tested (some (conditionBlock + 2, conditionBlock)) true block
      let finished := looped.jumpTo conditionBlock (conditionBlock + 2)
      have before : g.Follows False started [] := ((newBlock_follows g).andThen (newBlock_follows _)).andThen
        (newBlock_follows _)
      have pushed := before.matchesScopes hm
      have head : Follows False (started.pushLoop _ _) tested _ := loopHead_follows started pushed hc conditionBlock
        (conditionBlock + 1) (conditionBlock + 2) conditionBlock
      have beginsFinished : finished.Begins activation.blocks := (popLoop_grows finished).begins_of begins
      have succeedsFinished : finished.failed = false := (popLoop_grows finished).succeeds succeeds
      have beginsLooped := (jumpTo_grows looped _ _).begins_of beginsFinished
      have beginsTested : tested.Begins activation.blocks :=
        (generateBlock_grows tested _ true block).begins_of beginsLooped
      have beginsEntered : entered.Begins activation.blocks :=
        ((generateExpression_grows entered condition).trans (branchTo_grows _ _)).begins_of beginsTested
      have left : finished.popLoop.currentBlock = finished.currentBlock := assert_currentBlock _ _
      have leave (memory : Memory) (s : MachineState) (locals : Store)
          (represents : RepresentsAt llir program activation c.scopes (conditionBlock + 2) 0 memory s locals) :
          Behaves program move n s (next .next memory) :=
        falls memory s locals (RepresentsAt.of_block (g := finished) represents left)
      rw [Interpreter.execute]
      refine behaves_jump moves valid beginsEntered represents fun s₁ represents₁ => ?_
      refine (loop_behaves moves calls lowered valid fits entered pushed hc rfl rfl beginsTested bound hn hn leave
        (fun k hk again turns memory₂ s₂ locals₂ represents₂ => ?_) memory s₁ locals represents₁).mono lower
      refine generateBlock_behaves moves calls lowered valid tested _ block fits (head.matchesScopes pushed)
        (head.innermostLoop fun _ => ⟨_, rfl, rfl, rfl⟩) hb beginsLooped
        ((jumpTo_grows looped _ _).succeeds succeedsFinished) (hk.trans hn) represents₂
        ⟨?_, ?_, fun value memory s running world => (exits.returns value memory s running world).mono hk⟩
        fun memory₃ s₃ locals₃ represents₃ => ?_
      · rintro _ ⟨rfl⟩
        exact fun memory s locals represents => (leave memory s locals represents).mono hk
      · rintro _ ⟨rfl⟩
        exact turns
      · exact behaves_jump moves valid beginsFinished represents₃ fun s₄ represents₄ =>
          (turns memory₃ s₄ locals₃ represents₄).mono (Nat.sub_le k 1)
  | returnStatement expression =>
    cases typed with
    | returnStatement h =>
      exact generateReturnStatement_behaves moves calls lowered valid g fits hm h begins hn represents exits
  | breakStatement =>
    cases typed with
    | breakStatement h =>
      obtain ⟨blocks, rfl, top, -⟩ := hl h
      unfold generateStatement generateBreakStatement at begins
      rw [getBreakBlock_eq top] at begins
      rw [Interpreter.execute]
      exact behaves_jump moves valid (begins : (g.jumpTo blocks.1 g.blockCounter).Begins activation.blocks) represents
        fun s₁ represents₁ => (exits.breaks blocks rfl memory s₁ locals represents₁).mono lower
  | continueStatement =>
    cases typed with
    | continueStatement h =>
      obtain ⟨blocks, rfl, -, top⟩ := hl h
      unfold generateStatement generateContinueStatement at begins
      rw [getContinueBlock_eq top] at begins
      rw [Interpreter.execute]
      exact behaves_jump moves valid (begins : (g.jumpTo blocks.2 g.blockCounter).Begins activation.blocks) represents
        fun s₁ represents₁ => (exits.continues blocks rfl memory s₁ locals represents₁).mono lower

/-- The lowered block behaves like the interpreted one. -/
private theorem generateBlock_behaves (moves : Entering llir environment program move entering)
    (calls : CallsBehave llir environment program move invoke bound) (lowered : Lowered program llir)
    (valid : activation.Valid llir) (g : LlirGenerator) (loop : Option (Nat × Nat)) (block : IrBlock)
    {c : Context} {inLoop : Prop} (fits : ContextFits program c) (hm : Matches c.scopes g.symbolTable)
    (hl : g.InnermostLoop loop inLoop) (typed : BlockTyped readyRules returnType c inLoop [] block)
    (begins : (generateBlock g loop true block).Begins activation.blocks)
    (succeeds : (generateBlock g loop true block).failed = false) {n : Nat} (hn : n ≤ bound) {memory : Memory}
    {s : MachineState} {locals : Store} (represents : Represents llir program activation c.scopes g memory s locals)
    {next : Exit → Memory → Ending Status Memory Word}
    (exits : Exits llir program move activation c.scopes n loop next)
    (falls : ∀ memory s locals, Represents llir program activation c.scopes (generateBlock g loop true block) memory s
      locals → Behaves program move n s (next .next memory)) :
    Behaves program move n s ((Interpreter.executeBlock environment invoke bound block memory).andThen next) := by
  cases block with
  | mk fields statements =>
    cases typed with
    | mk scope h =>
      have entered : Matches ([] :: c.scopes) g.symbolTablePushScope.symbolTable :=
        .cons (by simp) .nil (fun _ _ => rfl) hm
      obtain ⟨declared, hm'⟩ : Declares False _ _ ∧ _ :=
        generateBlockFields_declares entered scope.distinct scope.field False.elim
      rw [map_analyzed scope.field] at h
      have nonempty : c.scopes ≠ [] := fun empty => by
        have bottom := fits.bottom
        simp [empty] at bottom
      have growsBody := generateStatements_grows (fields.foldl generateBlockField g.symbolTablePushScope) loop statements
      have current : (generateBlock g loop true (.mk fields statements)).currentBlock =
          (generateStatements (fields.foldl generateBlockField g.symbolTablePushScope) loop statements).currentBlock :=
        assert_currentBlock _ _
      have beginsBody : (generateStatements (fields.foldl generateBlockField g.symbolTablePushScope) loop
          statements).Begins activation.blocks :=
        ((assert_grows _ _).trans (.of_same rfl (.refl _) le_rfl id fun _ => id)).begins_of begins
      have succeedsBody := ((assert_grows (generateStatements (fields.foldl generateBlockField g.symbolTablePushScope) loop
        statements) ((generateStatements (fields.foldl generateBlockField g.symbolTablePushScope) loop
          statements).symbolTable ≠ [])).succeeds succeeds)
      have represents₀ : Represents llir program activation ([] :: c.scopes) g.symbolTablePushScope (memory.push []) s
          locals := represents.push
      rw [Interpreter.executeBlock, Execution.bind_apply, Execution.modify_apply, Ending.andThen, Execution.bind_apply,
        Ending.andThen_andThen]
      refine generateBlockFields_behaves moves lowered valid nonempty scope.field entered scope.distinct
        (growsBody.begins_of beginsBody) (growsBody.succeeds succeedsBody) represents₀ fun s₁ locals₁ represents₁ => ?_
      refine generateStatements_behaves moves calls lowered valid _ loop statements (fits.enter _) hm'
        (declared.innermostLoop hl) h beginsBody
        succeedsBody hn represents₁ (exits.enter nonempty) fun memory₂ s₂ locals₂ represents₂ => ?_
      exact falls memory₂.pop s₂ locals₂ (RepresentsAt.of_block (represents₂.pop nonempty) current)

/-- The lowered statements behave like the interpreted ones. -/
theorem generateStatements_behaves (moves : Entering llir environment program move entering)
    (calls : CallsBehave llir environment program move invoke bound) (lowered : Lowered program llir)
    (valid : activation.Valid llir) (g : LlirGenerator) (loop : Option (Nat × Nat)) (statements : IrStatements)
    {c : Context} {inLoop : Prop} (fits : ContextFits program c) (hm : Matches c.scopes g.symbolTable)
    (hl : g.InnermostLoop loop inLoop) (typed : StatementsTyped readyRules returnType c inLoop statements)
    (begins : (generateStatements g loop statements).Begins activation.blocks)
    (succeeds : (generateStatements g loop statements).failed = false) {n : Nat} (hn : n ≤ bound) {memory : Memory}
    {s : MachineState} {locals : Store} (represents : Represents llir program activation c.scopes g memory s locals)
    {next : Exit → Memory → Ending Status Memory Word}
    (exits : Exits llir program move activation c.scopes n loop next)
    (falls : ∀ memory s locals, Represents llir program activation c.scopes (generateStatements g loop statements) memory s
      locals → Behaves program move n s (next .next memory)) :
    Behaves program move n s ((Interpreter.executeStatements environment invoke bound statements memory).andThen next) := by
  cases statements with
  | nil =>
    rw [Interpreter.executeStatements]
    exact falls memory s locals represents
  | cons statement rest =>
    cases typed with
    | cons hs hr =>
      have follows : g.Follows False _ _ := generateStatement_follows g loop statement hm hl hs False.elim
      have grows := generateStatements_grows (generateStatement g loop statement) loop rest
      rw [Interpreter.executeStatements, Execution.bind_apply, Ending.andThen_andThen]
      refine generateStatement_behaves moves calls lowered valid g loop statement fits hm hl hs
        (grows.begins_of begins) (grows.succeeds succeeds) hn
        represents ⟨exits.breaks, exits.continues, exits.returns⟩ fun memory₁ s₁ locals₁ represents₁ => ?_
      exact generateStatements_behaves moves calls lowered valid _ loop rest fits (follows.matchesScopes hm)
        (follows.innermostLoop hl) hr begins
        succeeds hn represents₁ exits falls

end

end

end Roast
