import Roast.Assembly.SafeAssignments

/-! Statements run safely. A loop is safe for a number of steps because each turn takes a step. -/
namespace Roast
open LlirGenerator Systems

theorem LlirGenerator.Begins.jumped {g : LlirGenerator} {target next : Nat} {blocks : List LlirBlock}
    (begins : (g.jumpTo target next).Begins blocks) : g.Begins blocks := (jumpTo_grows g target next).begins_of begins

theorem ContextFits.enter {program : IrProgram} {c : Context} (fits : ContextFits program c) (scope : List IrField) :
    ContextFits program (c.enter scope) := by
  refine ⟨?_, fits.methods⟩
  have bottom := fits.bottom
  cases scopes : c.scopes with
  | nil => simp [scopes] at bottom
  | cons outer outers => simpa [Context.enter, scopes] using bottom

section
variable {llir : Llir} {environment : Environment} {program : IrProgram} {canonical : Prop} {activation : Activation}

def ExitsSafely (llir : Llir) (environment : Environment) (program : IrProgram) (canonical : Prop)
    (activation : Activation) (n : Nat) (loop : Option (Nat × Nat)) (scopes : List (List IrField)) : Prop :=
  ∀ blocks ∈ loop, ContinuesAt llir environment program canonical activation n blocks.1 0 scopes ∧
    ContinuesAt llir environment program canonical activation n blocks.2 0 scopes

theorem ContinuesAt.suffix {n block index : Nat} {scopes outer : List (List IrField)}
    (h : ContinuesAt llir environment program canonical activation n block index outer) (suffix : outer <:+ scopes) :
    ContinuesAt llir environment program canonical activation n block index scopes :=
  fun m hm s locals at' owned => h m hm s locals at' (owned.suffix suffix)

theorem ExitsSafely.mono {n m : Nat} {loop : Option (Nat × Nat)} {scopes : List (List IrField)}
    (h : ExitsSafely llir environment program canonical activation n loop scopes) (hm : m ≤ n) :
    ExitsSafely llir environment program canonical activation m loop scopes :=
  fun blocks mem => ⟨(h blocks mem).1.mono hm, (h blocks mem).2.mono hm⟩

private theorem popLoop_continues {g : LlirGenerator} {n : Nat} {scopes : List (List IrField)}
    (h : Continues llir environment program canonical activation n g.popLoop scopes) :
    Continues llir environment program canonical activation n g scopes := by
  have current : g.popLoop.currentBlock = g.currentBlock := assert_currentBlock _ _
  unfold Continues at h
  rwa [current] at h

/-- A point is safe for `n` steps when it is as long as it is again after fewer steps. -/
theorem ContinuesAt.loop {n block index : Nat} {scopes : List (List IrField)}
    (turn : ∀ m ≤ n, (∀ k < m, ContinuesAt llir environment program canonical activation k block index scopes) →
      ∀ s locals, AtPoint llir canonical activation block index s locals →
        Owned activation.method.arguments locals scopes → Safe llir environment program canonical m s) :
    ContinuesAt llir environment program canonical activation n block index scopes := by
  intro m
  induction m using Nat.strong_induction_on with
  | _ m ih =>
    intro hm
    exact turn m hm fun k hk l hl => ih l (hl.trans_lt hk) (hl.trans (hk.le.trans hm))

end

section
variable {llir : Llir} {environment : Environment} {program : IrProgram} {canonical : Prop}
  {activation : Activation} (valid : activation.Valid llir)
  (callers : canonical → ∀ frame ∈ activation.callers, frame.locals.Canonical) (lowered : Lowered program llir)
include valid callers lowered

/-- The fields of a block, one after the other. -/
theorem generateBlockFields_safe {scopes : List (List IrField)} (nonempty : scopes ≠ []) {fields : List IrField}
    (ready : ∀ field ∈ fields, field.Ready) {scope : List IrField} {g : LlirGenerator}
    (hm : Matches (scope :: scopes) g.symbolTable) (distinct : ((scope ++ fields).map IrField.identifier).Nodup)
    (begins : (fields.foldl generateBlockField g).Begins activation.blocks)
    (succeeds : (fields.foldl generateBlockField g).failed = false) {n : Nat} {s : MachineState} {locals : Store}
    (at' : AtEnd llir canonical activation g s locals)
    (owned : Owned activation.method.arguments locals (scope :: scopes))
    (next : Continues llir environment program canonical activation n (fields.foldl generateBlockField g)
      ((scope ++ fields) :: scopes)) : Safe llir environment program canonical n s := by
  induction fields generalizing g scope n s locals with
  | nil =>
    rw [List.append_nil] at next
    exact next n le_rfl s locals at' owned
  | cons field rest ih =>
    have fresh : field.identifier ∉ scope.map IrField.identifier := by
      rw [List.map_append, List.nodup_append] at distinct
      intro mem
      exact distinct.2.2 _ mem _ (by simp) rfl
    obtain ⟨-, hm'⟩ : g.Declares False _ ∧ _ := generateBlockField_declares hm (ready field (by simp)) fresh False.elim
    have grows := generateBlockFields_grows rest (generateBlockField g field)
    refine generateBlockField_safe valid callers lowered nonempty hm (ready field (by simp)) fresh
      (grows.begins_of begins) (grows.succeeds succeeds) at' owned fun m hmn s₁ locals₁ at₁ owned₁ => ?_
    refine ih (fun other mem => ready other (List.mem_cons_of_mem _ mem)) hm' (by simpa using distinct) begins succeeds
      at₁ owned₁ ?_
    rw [List.append_assoc]
    exact next.mono hmn

variable {N : Nat} (calls : CallsSafe llir environment program canonical N) {c : Context} (fits : ContextFits program c)
include calls fits

/-- A condition is evaluated and decides between two blocks. -/
private theorem condition_safe (g : LlirGenerator) (hm : Matches c.scopes g.symbolTable) {condition : IrExpression}
    (hc : ExpressionTyped readyRules c condition .bool) {trueBlock falseBlock : Nat} (g' : LlirGenerator)
    (same : g'.blocks = (generateExpression g condition).2.blocks)
    (current : g'.currentBlock = (generateExpression g condition).2.currentBlock)
    (begins : (g'.branchTo ⟨.equal, false, (generateExpression g condition).1, .literal 0, trueBlock,
      falseBlock⟩).Begins activation.blocks) {n : Nat} (hn : n ≤ N) {s : MachineState} {locals : Store}
    (at' : AtEnd llir canonical activation g s locals) (owned : Owned activation.method.arguments locals c.scopes)
    (nextTrue : ∀ m < n, ContinuesAt llir environment program canonical activation m trueBlock 0 c.scopes)
    (nextFalse : ∀ m < n, ContinuesAt llir environment program canonical activation m falseBlock 0 c.scopes) :
    Safe llir environment program canonical n s := by
  have beginsCondition : (generateExpression g condition).2.Begins activation.blocks := by
    obtain ⟨block, rest, blocks, growth⟩ := (branchTo_grows _ _).begins_of begins
    exact ⟨block, rest, same ▸ blocks, current ▸ growth⟩
  refine generateExpression_safe valid callers lowered calls fits g hm condition hc beginsCondition hn at' owned
    fun m hmn s₁ locals₁ at₁ kept₁ fit₁ => ?_
  have at₂ : AtEnd llir canonical activation g' s₁ locals₁ := by
    unfold AtEnd
    rw [current]
    exact at₁
  have literal : OperandFits llir canonical locals₁ 0 .int (.literal 0) := by simp [OperandFits]
  refine safe_branch valid callers begins at₂ (operandsOwned_pair rfl fit₁ literal) (fun unsigned => by cases unsigned)
    (fun _ k hk s₂ at₃ => ?_) fun _ k hk s₂ at₃ => ?_
  · exact nextTrue k (hk.trans_le hmn) k le_rfl s₂ _ at₃ (owned.kept hm kept₁)
  · exact nextFalse k (hk.trans_le hmn) k le_rfl s₂ _ at₃ (owned.kept hm kept₁)

/-- A loop: the condition is evaluated before every turn. -/
private theorem loop_safe (entered : LlirGenerator) (hm : Matches c.scopes entered.symbolTable)
    {condition : IrExpression}
    (hc : ExpressionTyped readyRules c condition .bool) {conditionBlock loopBlock endBlock : Nat}
    (block : entered.currentBlock.id = conditionBlock) (empty : entered.currentBlock.assignments.length = 0)
    (begins : ((generateExpression entered condition).2.branchTo ⟨.equal, false, (generateExpression entered condition).1,
      .literal 0, loopBlock, endBlock⟩).Begins activation.blocks) {n : Nat} (hn : n ≤ N)
    (leave : ContinuesAt llir environment program canonical activation n endBlock 0 c.scopes)
    (body : ∀ k < n, ContinuesAt llir environment program canonical activation k conditionBlock 0 c.scopes →
      ContinuesAt llir environment program canonical activation k endBlock 0 c.scopes →
      ContinuesAt llir environment program canonical activation k loopBlock 0 c.scopes) :
    ContinuesAt llir environment program canonical activation n conditionBlock 0 c.scopes := by
  refine .loop fun m hmn turn s locals at' owned => ?_
  subst block
  rw [← empty] at at'
  refine condition_safe valid callers lowered calls fits entered hm hc (generateExpression entered condition).2 rfl rfl
    begins (hmn.trans hn) at' owned (fun k hk => ?_) fun k hk => leave.mono (by omega)
  exact body k (by omega) (turn k hk) (leave.mono (by omega))

end

section
variable {llir : Llir} {environment : Environment} {program : IrProgram} {canonical : Prop}
  {activation : Activation} (valid : activation.Valid llir)
  (callers : canonical → ∀ frame ∈ activation.callers, frame.locals.Canonical) (lowered : Lowered program llir)
  {N : Nat} (calls : CallsSafe llir environment program canonical N) {method : IrMethod}
  (mem : method ∈ program.methods) (name : activation.method.identifier = method.identifier)
  (resumes : Resumes llir environment program canonical N method activation.callers)

/-- `break` and `continue` jump to a block of the innermost loop. -/
private theorem safe_exit (valid : activation.Valid llir)
    (callers : canonical → ∀ frame ∈ activation.callers, frame.locals.Canonical) {g : LlirGenerator}
    {target block : Nat} {scopes : List (List IrField)} (begins : (g.jumpTo target block).Begins activation.blocks)
    {n : Nat} {s : MachineState} {locals : Store} (at' : AtEnd llir canonical activation g s locals)
    (owned : Owned activation.method.arguments locals scopes)
    (exit : ContinuesAt llir environment program canonical activation n target 0 scopes) :
    Safe llir environment program canonical n s :=
  safe_jump valid callers begins at' fun m hm s' at₁ => exit m hm.le s' _ at₁ owned

include lowered mem name in
/-- Only the active method has its name. -/
private theorem eq_active {other : IrMethod} (mem' : other ∈ program.methods)
    (same : other.identifier = activation.method.identifier) : other = method :=
  List.inj_on_of_nodup_map ((names_nodup program).mp lowered.ready.typed.distinct).2.2.1 mem' mem (same.trans name)

include valid callers lowered mem name resumes

/-- A value is returned to the caller. -/
theorem safe_return {g : LlirGenerator} {source : LlirOperand}
    (closed : (g.setTerminal (.llirReturn source)).currentBlock ∈ activation.blocks) {n k : Nat} (hn : n ≤ N)
    {s : MachineState} {locals : Store} (at' : AtEnd llir canonical activation g s locals)
    (fit : OperandFits llir canonical locals k method.returnType source) : Safe llir environment program canonical n s := by
  refine safe_terminal valid callers closed at' ⟨operandsOwned_single rfl fit, fun asked other same => ?_, by simp⟩
    fun m hm => ?_
  · obtain rfl := LlirTerminal.llirReturn.inj same
    rintro ⟨other, mem', same, bool⟩
    obtain rfl := eq_active lowered mem name mem' same
    exact fit.bool_value asked bool _ _ _ _
  · exact resumes m (hm.le.trans hn) s at'.status at'.globals _ fun asked bool =>
      fit.bool_value asked bool environment s _ _

include calls

/-- A lowered return is safe. -/
private theorem generateReturnStatement_safe (g : LlirGenerator) {c : Context}
    (fits : ContextFits program c) (hm : Matches c.scopes g.symbolTable)
    {expression : Option IrExpression} (typed : ReturnTyped readyRules c method.returnType expression)
    (begins : (generateReturnStatement g expression).Begins activation.blocks) {n : Nat} (hn : n ≤ N)
    {s : MachineState} {locals : Store} (at' : AtEnd llir canonical activation g s locals)
    (owned : Owned activation.method.arguments locals c.scopes) : Safe llir environment program canonical n s := by
  have closed : ((generateReturnValue g expression).2.setTerminal
      (.llirReturn (generateReturnValue g expression).1)).currentBlock ∈ activation.blocks := begins.closed
  have begins' := (leave_grows _ _).begins_of begins
  cases typed with
  | none void =>
    refine safe_return valid callers lowered mem name resumes closed hn at' (k := 0) ?_
    exact fun _ bool => by rw [void] at bool; cases bool
  | @some expression h =>
    refine generateExpression_safe valid callers lowered calls fits g hm expression h begins' hn at' owned
      fun m hmn s₁ locals₁ at₁ kept₁ fit₁ => ?_
    exact safe_return valid callers lowered mem name resumes closed (hmn.trans hn) at₁ fit₁

omit valid callers lowered calls mem name resumes

mutual

/-- A statement is safe if what follows is. -/
private theorem generateStatement_safe (valid : activation.Valid llir)
    (callers : canonical → ∀ frame ∈ activation.callers, frame.locals.Canonical)
    (lowered : Lowered program llir) (calls : CallsSafe llir environment program canonical N)
    (mem : method ∈ program.methods) (name : activation.method.identifier = method.identifier)
    (resumes : Resumes llir environment program canonical N method activation.callers) (g : LlirGenerator)
    (loop : Option (Nat × Nat)) (statement : IrStatement)
    {c : Context} {inLoop : Prop} (fits : ContextFits program c) (hm : Matches c.scopes g.symbolTable)
    (hl : g.InnermostLoop loop inLoop) (typed : StatementTyped readyRules method.returnType c inLoop statement)
    (begins : (generateStatement g loop statement).Begins activation.blocks)
    (succeeds : (generateStatement g loop statement).failed = false) {n : Nat} (hn : n ≤ N)
    {s : MachineState} {locals : Store} (at' : AtEnd llir canonical activation g s locals)
    (owned : Owned activation.method.arguments locals c.scopes)
    (exits : ExitsSafely llir environment program canonical activation n loop c.scopes)
    (next : Continues llir environment program canonical activation n (generateStatement g loop statement) c.scopes) :
    Safe llir environment program canonical n s := by
  cases statement with
  | assignment assignment =>
    cases typed with
    | assignment h => exact generateAssignment_safe valid callers lowered calls fits g hm h begins hn at' owned next
  | methodCall identifier arguments =>
    cases typed with
    | methodCall h => exact generateMethodCall_safe valid callers lowered calls fits g hm h begins hn at' owned next
  | ifStatement condition ifBlock =>
    cases typed with
    | ifStatement hc hb =>
      have follows : g.Follows False _ _ := (generateExpression_follows g hm condition hc).andThen
        (branchNew_follows _ .equal false (generateExpression g condition).1 (.literal 0))
      have growsBlock := generateBlock_grows ((generateExpression g condition).2.branchNew .equal false
        (generateExpression g condition).1 (.literal 0)).2 loop true ifBlock
      have beginsBlock := (jumpTo_grows _ _ _).begins_of begins
      refine condition_safe valid callers lowered calls fits g hm hc (generateExpression g condition).2.newBlock.2.newBlock.2
        rfl rfl (growsBlock.begins_of beginsBlock) hn at' owned (fun m hmn k hk s₁ locals₁ at₁ owned₁ => ?_) fun m hmn => next.mono hmn.le
      refine generateBlock_safe valid callers lowered calls mem name resumes _ loop ifBlock fits
        (follows.matchesScopes hm) (follows.innermostLoop hl) hb beginsBlock
        succeeds (by omega) at₁ owned₁ (exits.mono (by omega)) fun k' hk' s₂ locals₂ at₂ owned₂ => ?_
      exact safe_jump valid callers begins at₂ fun l hl s₃ at₃ => next l (by omega) s₃ _ at₃ owned₂
  | ifElseStatement condition ifBlock elseBlock =>
    cases typed with
    | ifElseStatement hc hb hb' =>
      have follows : g.Follows False _ _ := (generateExpression_follows g hm condition hc).andThen
        (branchNew_follows _ .equal false (generateExpression g condition).1 (.literal 0))
      have followsIf := follows.trans (generateBlock_follows _ loop ifBlock (follows.matchesScopes hm)
        (follows.innermostLoop hl) hb False.elim)
      have followsElse (target next : Nat) := (followsIf.andThen (newBlock_follows _)).andThen (jumpTo_follows _ target next)
      have beginsElse := (jumpTo_grows _ _ _).begins_of begins
      have succeedsElse := (jumpTo_grows _ _ _).succeeds succeeds
      have beginsJump := (generateBlock_grows _ loop true elseBlock).begins_of beginsElse
      have succeedsJump := (generateBlock_grows _ loop true elseBlock).succeeds succeedsElse
      have growsJump (target next : Nat) := (newBlock_grows (generateBlock ((generateExpression g condition).2.branchNew
        .equal false (generateExpression g condition).1 (.literal 0)).2 loop true ifBlock)).trans
          (jumpTo_grows _ target next)
      have beginsIf := (growsJump _ _).begins_of beginsJump
      have succeedsIf := (growsJump _ _).succeeds succeedsJump
      refine condition_safe valid callers lowered calls fits g hm hc
        (generateExpression g condition).2.newBlock.2.newBlock.2 rfl rfl ((generateBlock_grows _ loop true ifBlock).begins_of beginsIf) hn at' owned
        (fun m hmn k hk s₁ locals₁ at₁ owned₁ => ?_) fun m hmn k hk s₁ locals₁ at₁ owned₁ => ?_
      · refine generateBlock_safe valid callers lowered calls mem name resumes _ loop ifBlock fits
          (follows.matchesScopes hm) (follows.innermostLoop hl) hb beginsIf
          succeedsIf (by omega) at₁ owned₁ (exits.mono (by omega)) fun k' hk' s₂ locals₂ at₂ owned₂ => ?_
        exact safe_jump valid callers beginsJump at₂ fun l hl s₃ at₃ => next l (by omega) s₃ _ at₃ owned₂
      · refine generateBlock_safe valid callers lowered calls mem name resumes _ loop elseBlock fits
          ((followsElse _ _).matchesScopes hm)
          ((followsElse _ _).innermostLoop hl) hb' beginsElse succeedsElse (by omega) at₁ owned₁
          (exits.mono (by omega)) fun k' hk' s₂ locals₂ at₂ owned₂ => ?_
        exact safe_jump valid callers begins at₂ fun l hl s₃ at₃ => next l (by omega) s₃ _ at₃ owned₂
  | forStatement initial condition update block =>
    cases typed with
    | forStatement hi hc hu hb =>
      let conditionBlock := (generateAssignment g initial).blockCounter
      let started := (generateAssignment g initial).newBlock.2.newBlock.2.newBlock.2.newBlock.2
      let entered := (started.pushLoop (conditionBlock + 3) (conditionBlock + 2)).jumpTo conditionBlock conditionBlock
      let tested := (generateExpression entered condition).2.branchTo
        ⟨.equal, false, (generateExpression entered condition).1, .literal 0, conditionBlock + 1, conditionBlock + 3⟩
      let looped := generateBlock tested (some (conditionBlock + 3, conditionBlock + 2)) true block
      let updating := looped.jumpTo (conditionBlock + 2) (conditionBlock + 2)
      let updated := generateForUpdate updating update
      let finished := updated.jumpTo conditionBlock (conditionBlock + 3)
      have first : g.Follows False _ _ := generateAssignment_follows g hm hi
      have before : g.Follows False started _ := (((first.andThen (newBlock_follows _)).andThen
        (newBlock_follows _)).andThen (newBlock_follows _)).andThen (newBlock_follows _)
      have pushed := before.matchesScopes hm
      have head : Follows False (started.pushLoop _ _) tested _ := loopHead_follows started pushed hc conditionBlock
        (conditionBlock + 1) (conditionBlock + 3) (conditionBlock + 2)
      have body : Follows False (started.pushLoop _ _) updating _ := (loopBlock_follows started pushed hc conditionBlock
        (conditionBlock + 1) (conditionBlock + 3) (conditionBlock + 2)
        fun g hm hl => generateBlock_follows g _ block hm hl hb False.elim).andThen (jumpTo_follows looped _ _)
      have beginsFinished : finished.Begins activation.blocks := (popLoop_grows finished).begins_of begins
      have succeedsFinished : finished.failed = false := (popLoop_grows finished).succeeds succeeds
      have beginsUpdated := (jumpTo_grows updated _ _).begins_of beginsFinished
      have beginsUpdating := (generateForUpdate_grows updating update).begins_of beginsUpdated
      have growsLooped := (jumpTo_grows looped (conditionBlock + 2) (conditionBlock + 2)).trans
        ((generateForUpdate_grows updating update).trans (jumpTo_grows updated conditionBlock (conditionBlock + 3)))
      have beginsLooped := growsLooped.begins_of beginsFinished
      have beginsTested : tested.Begins activation.blocks :=
        (generateBlock_grows tested _ true block).begins_of beginsLooped
      have beginsEntered : entered.Begins activation.blocks :=
        ((generateExpression_grows entered condition).trans (branchTo_grows _ _)).begins_of beginsTested
      have beginsInitial : (generateAssignment g initial).Begins activation.blocks := beginsEntered.jumped
      have leave : ContinuesAt llir environment program canonical activation n (conditionBlock + 3) 0 c.scopes :=
        popLoop_continues (g := finished) next
      refine generateAssignment_safe valid callers lowered calls fits g hm hi beginsInitial hn at' owned
        fun m₀ hm₀ s₀ locals₀ at₀ owned₀ => ?_
      have again := loop_safe valid callers lowered calls fits entered pushed hc rfl rfl beginsTested hn leave
        fun k hk turn leave' k' hk' s₂ locals₂ at₂ owned₂ => ?_
      · exact safe_jump valid callers beginsEntered at₀ fun m hm s₁ at₁ => again m (by omega) s₁ _ at₁ owned₀
      · -- `continue` goes to the update, which goes back to the condition
        have resumed : ContinuesAt llir environment program canonical activation k (conditionBlock + 2) 0 c.scopes := by
          intro l hl s₃ locals₃ at₃ owned₃
          refine generateForUpdate_safe valid callers lowered calls fits updating (body.matchesScopes pushed) hu
            beginsUpdated (by omega) at₃ owned₃ fun l' hl' s₄ locals₄ at₄ owned₄ => ?_
          exact safe_jump valid callers beginsFinished at₄ fun i hi s₅ at₅ => turn i (by omega) s₅ _ at₅ owned₄
        refine generateBlock_safe valid callers lowered calls mem name resumes tested _ block fits
          (head.matchesScopes pushed)
          (head.innermostLoop fun _ => ⟨_, rfl, rfl, rfl⟩) hb beginsLooped (growsLooped.succeeds succeedsFinished)
          (by omega) at₂ owned₂ ?_ fun l hl s₃ locals₃ at₃ owned₃ => ?_
        · rintro _ ⟨rfl⟩
          exact ⟨leave'.mono hk', resumed.mono hk'⟩
        · exact safe_jump valid callers beginsUpdating at₃ fun i hi s₄ at₄ => resumed i (by omega) s₄ _ at₄ owned₃
  | whileStatement condition block =>
    cases typed with
    | whileStatement hc hb =>
      let conditionBlock := g.blockCounter
      let started := g.newBlock.2.newBlock.2.newBlock.2
      let entered := (started.pushLoop (conditionBlock + 2) conditionBlock).jumpTo conditionBlock conditionBlock
      let tested := (generateExpression entered condition).2.branchTo
        ⟨.equal, false, (generateExpression entered condition).1, .literal 0, conditionBlock + 1, conditionBlock + 2⟩
      let looped := generateBlock tested (some (conditionBlock + 2, conditionBlock)) true block
      let finished := looped.jumpTo conditionBlock (conditionBlock + 2)
      have before : g.Follows False started [] := ((newBlock_follows g).andThen (newBlock_follows _)).andThen
        (newBlock_follows _)
      have pushed := before.matchesScopes hm
      have head : Follows False (started.pushLoop _ _) tested _ := loopHead_follows started pushed hc conditionBlock
        (conditionBlock + 1) (conditionBlock + 2) conditionBlock
      have beginsFinished : finished.Begins activation.blocks := (popLoop_grows finished).begins_of begins
      have succeedsFinished : finished.failed = false := (popLoop_grows finished).succeeds succeeds
      have beginsLooped := (jumpTo_grows looped _ _).begins_of beginsFinished
      have beginsTested : tested.Begins activation.blocks :=
        (generateBlock_grows tested _ true block).begins_of beginsLooped
      have beginsEntered : entered.Begins activation.blocks :=
        ((generateExpression_grows entered condition).trans (branchTo_grows _ _)).begins_of beginsTested
      have leave : ContinuesAt llir environment program canonical activation n (conditionBlock + 2) 0 c.scopes :=
        popLoop_continues (g := finished) next
      have again := loop_safe valid callers lowered calls fits entered pushed hc rfl rfl beginsTested hn leave
        fun k hk turn leave' k' hk' s₂ locals₂ at₂ owned₂ => ?_
      · exact safe_jump valid callers beginsEntered at' fun m hm s₁ at₁ => again m (by omega) s₁ _ at₁ owned
      · refine generateBlock_safe valid callers lowered calls mem name resumes tested _ block fits
          (head.matchesScopes pushed)
          (head.innermostLoop fun _ => ⟨_, rfl, rfl, rfl⟩) hb beginsLooped
          ((jumpTo_grows looped _ _).succeeds succeedsFinished) (by omega) at₂ owned₂ ?_
          fun l hl s₃ locals₃ at₃ owned₃ => ?_
        · rintro _ ⟨rfl⟩
          exact ⟨leave'.mono hk', turn.mono hk'⟩
        · exact safe_jump valid callers beginsFinished at₃ fun i hi s₄ at₄ => turn i (by omega) s₄ _ at₄ owned₃
  | returnStatement expression =>
    cases typed with
    | returnStatement h =>
      exact generateReturnStatement_safe valid callers lowered calls mem name resumes g fits hm h begins hn at' owned
  | breakStatement =>
    cases typed with
    | breakStatement h =>
      obtain ⟨blocks, rfl, top, -⟩ := hl h
      unfold generateStatement generateBreakStatement at begins
      rw [getBreakBlock_eq top] at begins
      exact safe_exit valid callers (begins : (g.jumpTo blocks.1 g.blockCounter).Begins activation.blocks) at' owned
        (exits blocks rfl).1
  | continueStatement =>
    cases typed with
    | continueStatement h =>
      obtain ⟨blocks, rfl, -, top⟩ := hl h
      unfold generateStatement generateContinueStatement at begins
      rw [getContinueBlock_eq top] at begins
      exact safe_exit valid callers (begins : (g.jumpTo blocks.2 g.blockCounter).Begins activation.blocks) at' owned
        (exits blocks rfl).2

/-- A block is safe if what follows is. -/
private theorem generateBlock_safe (valid : activation.Valid llir)
    (callers : canonical → ∀ frame ∈ activation.callers, frame.locals.Canonical)
    (lowered : Lowered program llir) (calls : CallsSafe llir environment program canonical N)
    (mem : method ∈ program.methods) (name : activation.method.identifier = method.identifier)
    (resumes : Resumes llir environment program canonical N method activation.callers) (g : LlirGenerator)
    (loop : Option (Nat × Nat)) (block : IrBlock)
    {c : Context} {inLoop : Prop} (fits : ContextFits program c) (hm : Matches c.scopes g.symbolTable)
    (hl : g.InnermostLoop loop inLoop) (typed : BlockTyped readyRules method.returnType c inLoop [] block)
    (begins : (generateBlock g loop true block).Begins activation.blocks)
    (succeeds : (generateBlock g loop true block).failed = false) {n : Nat} (hn : n ≤ N)
    {s : MachineState} {locals : Store} (at' : AtEnd llir canonical activation g s locals)
    (owned : Owned activation.method.arguments locals c.scopes)
    (exits : ExitsSafely llir environment program canonical activation n loop c.scopes)
    (next : Continues llir environment program canonical activation n (generateBlock g loop true block) c.scopes) :
    Safe llir environment program canonical n s := by
  cases block with
  | mk fields statements =>
    cases typed with
    | mk scope h =>
      have entered : Matches ([] :: c.scopes) g.symbolTablePushScope.symbolTable :=
        .cons (by simp) .nil (fun _ _ => rfl) hm
      obtain ⟨declared, hm'⟩ : Declares False _ _ ∧ _ :=
        generateBlockFields_declares entered scope.distinct scope.field False.elim
      rw [map_analyzed scope.field] at h
      have nonempty : c.scopes ≠ [] := fun empty => by
        have bottom := fits.bottom
        simp [empty] at bottom
      have growsBody := generateStatements_grows (fields.foldl generateBlockField g.symbolTablePushScope) loop statements
      have current : (generateBlock g loop true (.mk fields statements)).currentBlock =
          (generateStatements (fields.foldl generateBlockField g.symbolTablePushScope) loop statements).currentBlock :=
        assert_currentBlock _ _
      have beginsBody : (generateStatements (fields.foldl generateBlockField g.symbolTablePushScope) loop
          statements).Begins activation.blocks :=
        ((assert_grows _ _).trans (.of_same rfl (.refl _) le_rfl id fun _ => id)).begins_of begins
      have succeedsBody := ((assert_grows (generateStatements (fields.foldl generateBlockField g.symbolTablePushScope) loop
        statements) ((generateStatements (fields.foldl generateBlockField g.symbolTablePushScope) loop
          statements).symbolTable ≠ [])).succeeds succeeds)
      refine generateBlockFields_safe valid callers lowered nonempty scope.field entered scope.distinct
        (growsBody.begins_of beginsBody) (growsBody.succeeds succeedsBody) at' ⟨fun _ => by simp, owned⟩
        fun m hmn s₁ locals₁ at₁ owned₁ => ?_
      refine generateStatements_safe valid callers lowered calls mem name resumes _ loop statements (fits.enter _) hm'
        (declared.innermostLoop hl) h beginsBody
        succeedsBody (hmn.trans hn) at₁ owned₁ ?_ ?_
      · exact fun blocks mem => ⟨((exits blocks mem).1.mono hmn).suffix (List.suffix_cons _ _),
          ((exits blocks mem).2.mono hmn).suffix (List.suffix_cons _ _)⟩
      · unfold Continues at next
        rw [current] at next
        exact (next.mono hmn).suffix (List.suffix_cons _ _)

/-- Statements are safe if what follows is. -/
theorem generateStatements_safe (valid : activation.Valid llir)
    (callers : canonical → ∀ frame ∈ activation.callers, frame.locals.Canonical)
    (lowered : Lowered program llir) (calls : CallsSafe llir environment program canonical N)
    (mem : method ∈ program.methods) (name : activation.method.identifier = method.identifier)
    (resumes : Resumes llir environment program canonical N method activation.callers) (g : LlirGenerator)
    (loop : Option (Nat × Nat)) (statements : IrStatements)
    {c : Context} {inLoop : Prop} (fits : ContextFits program c) (hm : Matches c.scopes g.symbolTable)
    (hl : g.InnermostLoop loop inLoop) (typed : StatementsTyped readyRules method.returnType c inLoop statements)
    (begins : (generateStatements g loop statements).Begins activation.blocks)
    (succeeds : (generateStatements g loop statements).failed = false) {n : Nat} (hn : n ≤ N)
    {s : MachineState} {locals : Store} (at' : AtEnd llir canonical activation g s locals)
    (owned : Owned activation.method.arguments locals c.scopes)
    (exits : ExitsSafely llir environment program canonical activation n loop c.scopes)
    (next : Continues llir environment program canonical activation n (generateStatements g loop statements) c.scopes) :
    Safe llir environment program canonical n s := by
  cases statements with
  | nil => exact next n le_rfl s locals at' owned
  | cons statement rest =>
    cases typed with
    | cons hs hr =>
      have follows : g.Follows False _ _ := generateStatement_follows g loop statement hm hl hs False.elim
      have grows := generateStatements_grows (generateStatement g loop statement) loop rest
      refine generateStatement_safe valid callers lowered calls mem name resumes g loop statement fits hm hl hs
        (grows.begins_of begins) (grows.succeeds succeeds) hn
        at' owned exits fun m hmn s₁ locals₁ at₁ owned₁ => ?_
      exact generateStatements_safe valid callers lowered calls mem name resumes _ loop rest fits
        (follows.matchesScopes hm) (follows.innermostLoop hl) hr begins
        succeeds (hmn.trans hn) at₁ owned₁ (exits.mono hmn) (next.mono hmn)

end

end

end Roast
