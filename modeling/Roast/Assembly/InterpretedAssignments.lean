import Roast.Assembly.InterpretedExpressions

/-! The code of assignments and declarations does what the interpreter does with them. -/
namespace Roast
open LlirGenerator Systems

def PositionHolds (llir : Llir) (environment : Environment) (locals : Store) (k : Nat) (array : LlirField)
    (position : Nat) : Option LlirOperand → Prop
  | none => position = 0 ∧ 0 < array.valueCount
  | some index => ∃ word, OperandHolds llir environment locals k word index ∧ InBounds word array ∧ word.toNat = position

theorem PositionHolds.kept {llir : Llir} {environment : Environment} {locals locals' : Store} {k k' position : Nat}
    {array : LlirField} {index : Option LlirOperand} (h : PositionHolds llir environment locals k array position index)
    (kept : Kept k locals locals') (hk : k ≤ k') : PositionHolds llir environment locals' k' array position index := by
  cases index with
  | none => exact h
  | some index =>
    obtain ⟨word, holds, inside⟩ := h
    exact ⟨word, holds.kept kept hk, inside⟩

/-- The unsigned comparison of a bounds check. -/
private theorem ult_eq_inBounds {index : Word} {array : LlirField} (positive : 0 < array.valueCount)
    (length : array.valueCount < 2 ^ 63) :
    index.ult (BitVec.ofInt 64 array.valueCount) = decide (InBounds index array) := by
  have value : (BitVec.ofInt 64 array.valueCount).toNat = array.valueCount.toNat := by
    rw [BitVec.toNat_ofInt, Int.emod_eq_of_lt positive.le (by omega)]
  rw [BitVec.ult, value]
  refine decide_eq_decide.mpr ?_
  unfold InBounds
  omega

private theorem assignmentType_eq {assignOperator : IrAssignOperator} {operator : IrBinaryOperator}
    (compound : assignOperator.operator = some operator) :
    assignmentType assignOperator = irOperatorToAssignmentType operator ∧ ¬ (operator = .or ∨ operator = .and) := by
  cases assignOperator <;> cases compound <;> exact ⟨rfl, by decide⟩

section
variable {llir : Llir} {environment : Environment} {program : IrProgram} {move : MachineState → MachineState}
  {entering : String → Bindings → Bindings} (moves : Entering llir environment program move entering)
  {invoke : String → List Word → Interpreter.Action Word} {bound : Nat}
  (calls : CallsBehave llir environment program move invoke bound) (lowered : Lowered program llir)
  {activation : Activation} (valid : activation.Valid llir) {c : Context} (fits : ContextFits program c)
include moves lowered valid

omit lowered in
/-- A checked index is in range; otherwise the program ends. -/
private theorem behaves_boundsCheck {g : LlirGenerator} {array : LlirField} {index : LlirOperand} {position : Word}
    {k n : Nat}
    {memory : Memory} {s : MachineState} {locals store : Store} {words : List Word}
    (begins : (generateBoundsCheck g index (BitVec.ofInt 64 array.valueCount)).Begins activation.blocks)
    (represents : Represents llir program activation c.scopes g memory s locals)
    (holds : OperandHolds llir environment locals k position index) (wordsHold : WordsHold store array words)
    (positive : 0 < array.valueCount) (length : array.valueCount < 2 ^ 63)
    {next : Nat → Memory → Ending Status Memory Word}
    (receives : ∀ s', InBounds position array → Represents llir program activation c.scopes
        (generateBoundsCheck g index (BitVec.ofInt 64 array.valueCount)) memory s' locals →
      Behaves program move n s' (next position.toNat memory)) :
    Behaves program move n s ((Interpreter.checkIndex position words memory).andThen next) := by
  have beginsTrap := (close_grows _ _ _).begins_of begins
  refine behaves_branch moves valid beginsTrap represents (holds.operand s _ _) rfl fun s₁ represents₁ => ?_
  have reached : RepresentsAt llir program activation c.scopes
      (if decide (InBounds position array) = true then g.blockCounter + 1 else g.blockCounter) 0 memory s₁ locals := by
    rw [← ult_eq_inBounds positive length]
    exact represents₁
  have asked := wordsHold.inBounds position
  unfold Interpreter.checkIndex
  by_cases inside : InBounds position array
  · rw [if_pos (asked.mp inside)]
    rw [if_pos (decide_eq_true inside)] at reached
    exact (receives s₁ inside reached).mono (Nat.sub_le _ 1)
  · rw [if_neg fun below => inside (asked.mpr below)]
    rw [if_neg (by simpa using inside)] at reached
    refine behaves_terminal (g := (g.branchNew .less true index (.literal (BitVec.ofInt 64 array.valueCount))).2) moves valid
      begins.closed reached.point rfl rfl ?_
    exact ⟨0, rfl, trivial, reached.holds.globals, reached.holds.calls, reached.holds.strays⟩

variable {g : LlirGenerator} (hm : Matches c.scopes g.symbolTable) {identifier : String} {field : LlirField}
  (stored : storage c.scopes identifier = some field) {index : Option LlirOperand} {n k position : Nat} {memory : Memory}
  {s : MachineState} {locals : Store}
include fits hm stored

/-- A variable is read into a temporary. -/
private theorem behaves_addRead
    (begins : (g.newLocalTemporary.2.addRead field g.newLocalTemporary.1 index).Begins activation.blocks)
    (represents : Represents llir program activation c.scopes g memory s locals)
    (holds : PositionHolds llir environment locals k field position index)
    {next : Word → Memory → Ending Status Memory Word}
    (receives : Receives llir program move activation c.scopes n g.temporaryCounter
      (g.newLocalTemporary.2.addRead field g.newLocalTemporary.1 index) locals
      (fun value locals' => OperandHolds llir environment locals' (g.temporaryCounter + 1) value
        (.field g.newLocalTemporary.1)) next) :
    Behaves program move n s ((Interpreter.read environment identifier position memory).andThen next) := by
  obtain ⟨words, looked, wordsHold⟩ := represents.holds.find lowered fits.bottom stored
  cases index with
  | none =>
    obtain ⟨rfl, positive⟩ := holds
    cases first : words[0]? with
    | none => exact absurd first (wordsHold.first positive)
    | some word =>
      rw [read_found looked first]
      have read : s.operand llir environment (activation.frameAt g locals) (.field field) = word := by
        have value := wordsHold.word 0 word first
        rw [← value, MachineState.operand, MachineState.cell, Activation.frameAt_locals]
        split <;> rfl
      exact behaves_unary moves valid lowered.named hm begins represents read le_rfl receives
  | some index =>
    obtain ⟨word, holds, inside, rfl⟩ := holds
    obtain ⟨value, found⟩ : ∃ value, words[word.toNat]? = some value :=
      ⟨_, List.getElem?_eq_getElem ((wordsHold.inBounds word).mp inside)⟩
    rw [read_found looked found]
    have represents₀ : Represents llir program activation c.scopes g.newLocalTemporary.2 memory s locals := represents
    exact behaves_access moves valid lowered.named hm begins represents₀ holds wordsHold
      (newLocalTemporary_fresh lowered.named g) le_rfl found receives

/-- A word is stored into a variable. -/
private theorem behaves_addWrite {source : LlirOperand}
    (begins : (g.addWrite field source index).Begins activation.blocks)
    (represents : Represents llir program activation c.scopes g memory s locals)
    (holds : PositionHolds llir environment locals k field position index) {k' : Nat} {word : Word}
    (sourceHolds : OperandHolds llir environment locals k' word source)
    {next : Unit → Memory → Ending Status Memory Word}
    (receives : ∀ memory s' locals', Represents llir program activation c.scopes (g.addWrite field source index) memory s'
      locals' → Behaves program move n s' (next () memory)) :
    Behaves program move n s ((Interpreter.write identifier position word memory).andThen next) := by
  obtain ⟨at', memoryHolds⟩ := represents
  have global := memoryHolds.global lowered fits.bottom stored
  have assigned := memoryHolds.assign lowered fits.bottom stored hm (activation.frameAt g locals) activation.callers
    position word
  have read : s.operand llir environment (activation.frameAt g locals) source = word := sourceHolds.operand s _ _
  have stores (assignment : LlirAssignment) (added : (g.addAssignment assignment).Begins activation.blocks)
      (same : (g.addWrite field source index).currentBlock = (g.addAssignment assignment).currentBlock)
      (steps : stepAssignment llir environment s (activation.frameAt g locals) activation.callers assignment =
        s.store llir (activation.frameAt g locals) activation.callers field position word) :
      Behaves program move n s ((Interpreter.write identifier position word memory).andThen next) := by
    refine behaves_assignment moves valid added at' steps (store_activations ..) ?_
    refine (receives _ _ _ (RepresentsAt.of_block ⟨?_, assigned⟩ same)).mono (Nat.sub_le n 1)
    exact at'.store lowered.named assignment position False.elim global
  cases index with
  | none =>
    obtain rfl : position = 0 := holds.1
    exact stores _ begins rfl (congrArg (s.store llir _ _ field 0) read)
  | some index =>
    obtain ⟨word', holds, inside, rfl⟩ := holds
    have indexRead : s.operand llir environment (activation.frameAt g locals) index = word' := holds.operand s _ _
    refine stores (.arrayUpdate index source field) begins rfl ?_
    unfold stepAssignment
    dsimp only
    rw [indexRead, if_pos inside]
    exact congrArg (s.store llir _ _ field word'.toNat) read

/-- The end of an assignment, once index and source are there. -/
private theorem generateAssignmentWrite_behaves {assignOperator : IrAssignOperator} {source : LlirOperand} {word : Word}
    (begins : (generateAssignmentWrite g assignOperator field index source).Begins activation.blocks)
    (represents : Represents llir program activation c.scopes g memory s locals)
    (holds : PositionHolds llir environment locals g.temporaryCounter field position index)
    (sourceHolds : OperandHolds llir environment locals g.temporaryCounter word source)
    {next : Unit → Memory → Ending Status Memory Word}
    (receives : ∀ memory s' locals', Represents llir program activation c.scopes
      (generateAssignmentWrite g assignOperator field index source) memory s' locals' →
        Behaves program move n s' (next () memory)) :
    Behaves program move n s
      ((Interpreter.executeWrite environment assignOperator identifier position word memory).andThen next) := by
  by_cases set : assignOperator = .set
  · subst set
    exact behaves_addWrite moves lowered valid fits hm stored begins represents holds sourceHolds receives
  · obtain ⟨operator, compound⟩ : ∃ operator, assignOperator.operator = some operator := by
      cases assignOperator with
      | set => exact absurd rfl set
      | add | sub | mul | div | mod | increment | decrement => exact ⟨_, rfl⟩
    obtain ⟨type, both⟩ := assignmentType_eq compound
    have unfolded : generateAssignmentWrite g assignOperator field index source =
        let read := g.newLocalTemporary.2.addRead field g.newLocalTemporary.1 index
        (read.newLocalTemporary.2.addAssignment (.binary (assignmentType assignOperator) (.field g.newLocalTemporary.1)
          source read.newLocalTemporary.1)).addWrite field (.field read.newLocalTemporary.1) index := if_neg set
    rw [unfolded] at begins receives
    rw [type] at begins receives
    have executed : Interpreter.executeWrite environment assignOperator identifier position word = (do
        let old ← Interpreter.read environment identifier position
        Interpreter.write identifier position (← Interpreter.apply operator old word)) := by
      rw [Interpreter.executeWrite, compound]
    have counter := (addRead_grows g.newLocalTemporary.2 field g.newLocalTemporary.1 index).temporaryCounter
    have counter' : g.temporaryCounter ≤
        (g.newLocalTemporary.2.addRead field g.newLocalTemporary.1 index).temporaryCounter :=
      (newLocalTemporary_grows g).temporaryCounter.trans counter
    have beginsBinary := (addWrite_grows _ _ _ _).begins_of begins
    have beginsRead := ((newLocalTemporary_grows _).trans (addAssignment_grows _ _)).begins_of beginsBinary
    rw [executed, Execution.bind_apply, Ending.andThen_andThen]
    refine behaves_addRead moves lowered valid fits hm stored beginsRead represents holds
      fun old memory₁ s₁ locals₁ represents₁ kept₁ holds₁ => ?_
    rw [Execution.bind_apply, Ending.andThen_andThen]
    refine behaves_binary moves valid lowered.named hm both beginsBinary represents₁ holds₁
      (sourceHolds.kept kept₁ counter') le_rfl fun value memory₂ s₂ locals₂ represents₂ kept₂ holds₂ => ?_
    refine behaves_addWrite moves lowered valid fits ?_ stored begins represents₂ (holds.kept (kept₁.trans kept₂ counter')
      (counter'.trans (Nat.le_succ _))) holds₂ receives
    have follows : g.Follows False _ _ := ((newLocalTemporary_follows g).andThen
      (addRead_follows g.newLocalTemporary.2 field g.newLocalTemporary.1 index)).andThen (newLocalTemporary_follows _)
    exact (follows.andThen (addAssignment_follows _ _)).matchesScopes hm

end

section
variable {llir : Llir} {environment : Environment} {program : IrProgram} {move : MachineState → MachineState}
  {entering : String → Bindings → Bindings} (moves : Entering llir environment program move entering)
  {invoke : String → List Word → Interpreter.Action Word} {bound : Nat}
  (calls : CallsBehave llir environment program move invoke bound) (lowered : Lowered program llir)
  {activation : Activation} (valid : activation.Valid llir) {c : Context} (fits : ContextFits program c)
  (g : LlirGenerator) (hm : Matches c.scopes g.symbolTable) {n : Nat} (hn : n ≤ bound) {memory : Memory} {s : MachineState}
  {locals : Store} (represents : Represents llir program activation c.scopes g memory s locals)
include moves calls lowered valid fits hm hn represents

/-- The lowered source of an assignment behaves like the interpreted one. -/
private theorem generateSource_behaves {source : Option IrExpression} {type : IrDataType}
    (typed : ∀ expression, source = some expression → ExpressionTyped readyRules c expression type)
    (begins : (generateSource g source).2.Begins activation.blocks) {next : Word → Memory → Ending Status Memory Word}
    (receives : Receives llir program move activation c.scopes n g.temporaryCounter (generateSource g source).2 locals
      (fun word locals' => OperandHolds llir environment locals' (generateSource g source).2.temporaryCounter word
        (generateSource g source).1) next) :
    Behaves program move n s ((Interpreter.evaluateSource environment invoke source memory).andThen next) := by
  cases source with
  | none => exact receives 1 memory s locals represents (.refl _ _) rfl
  | some expression =>
    exact generateExpression_behaves moves calls lowered valid fits g hm expression (typed expression rfl) begins hn
      represents receives

/-- The index of an assignment is evaluated and checked. -/
private theorem generateAssignmentIndex_behaves {location : IrLocation} {field : IrField} {type : IrDataType}
    (typed : LocationTyped readyRules c location field type)
    (begins : (generateAssignmentIndex (g.lookup location).2 (g.lookup location).1 location).2.Begins activation.blocks)
    {next : Nat → Memory → Ending Status Memory Word}
    (receives : Receives llir program move activation c.scopes n g.temporaryCounter
      (generateAssignmentIndex (g.lookup location).2 (g.lookup location).1 location).2 locals
      (fun position locals' => PositionHolds llir environment locals'
        (generateAssignmentIndex (g.lookup location).2 (g.lookup location).1 location).2.temporaryCounter
        (g.lookup location).1 position
        (generateAssignmentIndex (g.lookup location).2 (g.lookup location).1 location).1) next) :
    Behaves program move n s ((Interpreter.evaluatePosition environment invoke location memory).andThen next) := by
  have resolved : c.field location.identifier = some field := by cases typed <;> assumption
  obtain ⟨level, -, result, stored, ready⟩ := lookup_found hm location resolved
  have count : (g.lookup location).1.valueCount = field.arrayLength := congrArg LlirField.valueCount result
  have represents₀ : Represents llir program activation c.scopes (g.lookup location).2 memory s locals :=
    represents.of_block (lookup_currentBlock g _)
  cases typed with
  | scalar found =>
    exact receives 0 memory s locals represents₀ (.refl _ _) ⟨rfl, ready.positive.trans_eq count.symm⟩
  | @element node identifier index _ found array h =>
    change storage c.scopes identifier = _ at stored
    have follows : g.Follows False _ _ := lookup_follows hm (.element node identifier index) found
    rw [Interpreter.evaluatePosition, Execution.bind_apply, Ending.andThen_andThen]
    refine generateExpression_behaves moves calls lowered valid fits _ (follows.matchesScopes hm) index h
      ((generateBoundsCheck_grows _ _ _).begins_of begins) hn represents₀
      fun position memory₁ s₁ locals₁ represents₁ kept₁ holds₁ => ?_
    obtain ⟨words, looked, wordsHold⟩ := represents₁.holds.find lowered fits.bottom stored
    rw [Execution.bind_apply, Execution.get_apply, Ending.andThen, looked]
    have kept := (Kept.refl g.temporaryCounter locals).trans kept₁ (lookup_temporaryCounter g _).ge
    rw [← result] at wordsHold
    refine behaves_boundsCheck moves valid begins represents₁ holds₁ wordsHold (count ▸ ready.positive)
      (count ▸ ready.length) fun s₂ inside represents₂ => ?_
    exact receives position.toNat memory₁ s₂ locals₁ represents₂ kept ⟨position, holds₁, inside, rfl⟩

/-- The lowered assignment behaves like the interpreted one. -/
theorem generateAssignment_behaves {assignment : IrAssignment} (typed : AssignmentTyped readyRules c assignment)
    (begins : (generateAssignment g assignment).Begins activation.blocks)
    {next : Unit → Memory → Ending Status Memory Word}
    (receives : ∀ memory s' locals', Represents llir program activation c.scopes (generateAssignment g assignment) memory s'
      locals' → Behaves program move n s' (next () memory)) :
    Behaves program move n s ((Interpreter.executeAssignment environment invoke assignment memory).andThen next) := by
  obtain ⟨location, assignOperator, expression⟩ := assignment
  obtain ⟨field, type, hl, -, scalar, int, hx⟩ := typed.location
  have resolved : c.field location.identifier = some field := by cases hl <;> assumption
  obtain ⟨level, -, result, stored, ready⟩ := lookup_found hm location resolved
  rw [← result] at stored
  have first : g.Follows False _ _ := generateAssignmentIndex_follows g hm hl
  have second : Follows False _ _ _ := generateSource_follows _ (first.matchesScopes hm) hx
  have growsWrite := generateAssignmentWrite_grows (generateSource (generateAssignmentIndex (g.lookup location).2
    (g.lookup location).1 location).2 expression).2 assignOperator (g.lookup location).1 (generateAssignmentIndex
      (g.lookup location).2 (g.lookup location).1 location).1 (generateSource (generateAssignmentIndex
        (g.lookup location).2 (g.lookup location).1 location).2 expression).1
  have growsSource := generateSource_grows (generateAssignmentIndex (g.lookup location).2
    (g.lookup location).1 location).2 expression
  have beginsSource := growsWrite.begins_of begins
  rw [Interpreter.executeAssignment, Execution.bind_apply, Ending.andThen_andThen]
  refine generateAssignmentIndex_behaves moves calls lowered valid fits g hm hn represents hl
    (growsSource.begins_of beginsSource) fun position memory₁ s₁ locals₁ represents₁ kept₁ holds₁ => ?_
  rw [Execution.bind_apply, Ending.andThen_andThen]
  refine generateSource_behaves moves calls lowered valid fits _ (first.matchesScopes hm) hn represents₁ hx beginsSource
    fun word memory₂ s₂ locals₂ represents₂ kept₂ holds₂ => ?_
  exact generateAssignmentWrite_behaves moves lowered valid fits (second.matchesScopes (first.matchesScopes hm)) stored
    begins represents₂ (holds₁.kept kept₂ growsSource.temporaryCounter) holds₂ receives

/-- A call whose value is not used. -/
theorem generateMethodCall_behaves {identifier : String} {arguments : IrArguments} {type : IrDataType}
    (typed : CallTyped readyRules c identifier arguments type)
    (begins : (generateMethodCall g identifier arguments).2.Begins activation.blocks)
    {next : Unit → Memory → Ending Status Memory Word}
    (receives : ∀ memory s' locals', Represents llir program activation c.scopes
      (generateMethodCall g identifier arguments).2 memory s' locals' → Behaves program move n s' (next () memory)) :
    Behaves program move n s
      ((Interpreter.executeMethodCall environment invoke identifier arguments memory).andThen next) := by
  rw [Interpreter.executeMethodCall, Execution.bind_apply, Ending.andThen_andThen]
  have called (values : List Word) (memory : Memory) :
      ((do let _ ← invoke identifier values : Interpreter.Action Unit) memory).andThen next =
        (invoke identifier values memory).andThen fun _ memory => next () memory := Ending.andThen_andThen _ _ _
  simp only [called]
  exact generateCall_behaves moves calls lowered valid fits g hm typed begins hn represents
    fun word memory' s' locals' represents' _ _ => receives memory' s' locals' represents'

theorem generateForUpdate_behaves {update : IrForUpdate} (typed : ForUpdateTyped readyRules c update)
    (begins : (generateForUpdate g update).Begins activation.blocks)
    {next : Unit → Memory → Ending Status Memory Word}
    (receives : ∀ memory s' locals', Represents llir program activation c.scopes (generateForUpdate g update) memory s'
      locals' → Behaves program move n s' (next () memory)) :
    Behaves program move n s ((Interpreter.executeForUpdate environment invoke update memory).andThen next) := by
  cases typed with
  | methodCall h =>
    exact generateMethodCall_behaves moves calls lowered valid fits g hm hn represents h begins receives
  | assignment h =>
    exact generateAssignment_behaves moves calls lowered valid fits g hm hn represents h begins receives

end

private theorem llirField_valueAt {field : IrField} (level position : Nat) :
    (field.llirField level).values.getD position 0 = field.declaredValue position := llirField_value position

section
variable {llir : Llir} {environment : Environment} {program : IrProgram} {move : MachineState → MachineState}
  {entering : String → Bindings → Bindings} (moves : Entering llir environment program move entering)
  (lowered : Lowered program llir) {activation : Activation} (valid : activation.Valid llir) {scope : List IrField}
  {scopes : List (List IrField)} (nonempty : scopes ≠ []) {n : Nat} {ending : Ending Status Memory Word}
include moves lowered valid nonempty

section
variable {tables : List (List (String × LlirField))} (hm : Matches (scope :: scopes) tables) {field : IrField}
  (ready : field.Ready) (fresh : field.identifier ∉ scope.map IrField.identifier)
include hm ready fresh

/-- A word of a field that is not yet declared is written. -/
private theorem behaves_initialize {g : LlirGenerator} {assignment : LlirAssignment}
    (begins : (g.addAssignment assignment).Begins activation.blocks) {memory : Memory} {s : MachineState} {locals : Store}
    (represents : Represents llir program activation (scope :: scopes) g memory s locals) {position : Nat} {value : Word}
    (stores : stepAssignment llir environment s (activation.frameAt g locals) activation.callers assignment =
      s.store llir (activation.frameAt g locals) activation.callers (field.llirField scopes.length) position value)
    (next : ∀ s', Represents llir program activation (scope :: scopes) (g.addAssignment assignment) memory s'
      (locals.write llir (field.llirField scopes.length) position value) → Behaves program move n s' ending) :
    Behaves program move n s ending := by
  obtain ⟨at', holds⟩ := represents
  have isLocal : ¬ llir.IsGlobal (field.llirField scopes.length).identifier :=
    lowered.named.not_isGlobal (llirField_not_identifier (List.length_pos_iff.mpr nonempty) field)
  refine behaves_assignment moves valid begins at' stores (store_activations ..) ((next _ ⟨?_, ?_⟩).mono (Nat.sub_le n 1))
  · exact at'.store lowered.named assignment position False.elim fun isGlobal => absurd isGlobal isLocal
  · exact holds.undeclared lowered nonempty hm ready fresh _ _ position value

/-- The loop that initializes an array; `count` elements are written already. -/
private theorem arrayInitialization_behaves (small : field.arrayLength < 2 ^ 32) (indices : List Nat)
    {g : LlirGenerator}
    {count : Nat} (rest : List.range' count indices.length = indices)
    (whole : ↑(count + indices.length) = field.arrayLength)
    (begins : (indices.map fun i => LlirAssignment.arrayUpdate (.literal (BitVec.ofNat 64 i))
      (.literal ((field.llirField scopes.length).values.getD i 0)) (field.llirField scopes.length)).foldl
        addAssignment g |>.Begins activation.blocks) {memory : Memory} {s : MachineState} {locals : Store}
    (represents : Represents llir program activation (scope :: scopes) g memory s locals)
    (written : ∀ position < count,
      (locals (field.llirField scopes.length).identifier position).value = field.declaredValue position)
    (next : ∀ s' locals', Represents llir program activation (scope :: scopes) ((indices.map fun i =>
        LlirAssignment.arrayUpdate (.literal (BitVec.ofNat 64 i)) (.literal ((field.llirField scopes.length).values.getD i 0))
          (field.llirField scopes.length)).foldl addAssignment g) memory s' locals' →
      (∀ position : Nat, position < field.arrayLength →
        (locals' (field.llirField scopes.length).identifier position).value = field.declaredValue position) →
      Behaves program move n s' ending) : Behaves program move n s ending := by
  induction indices generalizing g count s locals with
  | nil =>
    rw [List.length_nil, Nat.add_zero] at whole
    exact next s locals represents fun position inside => written position (by omega)
  | cons i indices ih =>
    rw [List.length_cons, List.range'_succ, List.cons.injEq] at rest
    obtain ⟨rfl, rest⟩ := rest
    rw [List.length_cons] at whole
    have position : (BitVec.ofNat 64 count).toNat = count := by
      rw [BitVec.toNat_ofNat, Nat.mod_eq_of_lt (by omega)]
    have inside : InBounds (BitVec.ofNat 64 count) (field.llirField scopes.length) := by
      have bound : (count : Int) < field.arrayLength := by omega
      rwa [← position] at bound
    have isLocal : ¬ llir.IsGlobal (field.llirField scopes.length).identifier :=
      lowered.named.not_isGlobal (llirField_not_identifier (List.length_pos_iff.mpr nonempty) field)
    rw [List.map_cons, List.foldl_cons] at begins next
    have stores : stepAssignment llir environment s (activation.frameAt g locals) activation.callers
        (.arrayUpdate (.literal (BitVec.ofNat 64 count)) (.literal ((field.llirField scopes.length).values.getD count 0))
          (field.llirField scopes.length)) = s.store llir (activation.frameAt g locals) activation.callers
            (field.llirField scopes.length) count ((field.llirField scopes.length).values.getD count 0) := by
      simp only [stepAssignment, MachineState.operand, inside, if_true, position]
    refine behaves_initialize moves lowered valid nonempty hm ready fresh ((foldl_addAssignment_grows _ _).begins_of begins)
      represents stores fun s' represents' => ?_
    refine ih rest (by omega) begins represents' (fun other below => ?_) next
    simp only [Store.write, isLocal, if_false, Store.set, true_and]
    split
    · rename_i last
      exact (llirField_valueAt scopes.length count).trans (congrArg field.declaredValue last.symm)
    · exact written other (by omega)

omit hm in
/-- A field of a block is declared and written. -/
private theorem generateBlockField_behaves {g : LlirGenerator} (hm : Matches (scope :: scopes) g.symbolTable)
    (begins : (generateBlockField g field).Begins activation.blocks)
    (succeeds : (generateBlockField g field).failed = false) {outer : Memory} {bindings : Bindings} {s : MachineState}
    {locals : Store}
    (represents : Represents llir program activation (scope :: scopes) g (outer.push bindings) s locals)
    (next : ∀ s' locals', Represents llir program activation ((scope ++ [field]) :: scopes) (generateBlockField g field)
      (outer.push (bindings ++ [(field.identifier, field.initialWords)])) s' locals' → Behaves program move n s' ending) :
    Behaves program move n s ending := by
  have made := generateField_field hm field
  have isLocal : ¬ llir.IsGlobal (field.llirField scopes.length).identifier :=
    lowered.named.not_isGlobal (llirField_not_identifier (List.length_pos_iff.mpr nonempty) field)
  have current : ((generateField g field).2.addField (generateField g field).1).currentBlock.id = g.currentBlock.id ∧
      ((generateField g field).2.addField (generateField g field).1).currentBlock.assignments =
        g.currentBlock.assignments := by
    unfold generateField LlirGenerator.assert
    dsimp only
    split <;> exact ⟨rfl, rfl⟩
  have represents₁ : Represents llir program activation (scope :: scopes)
      ((generateField g field).2.addField (generateField g field).1) (outer.push bindings) s locals := by
    unfold Represents
    rw [current.1, current.2]
    exact represents
  have unfolded : generateBlockField g field = generateFieldInitialization
      ((generateField g field).2.addField (generateField g field).1) (generateField g field).1 := rfl
  rw [unfolded] at begins next succeeds
  rw [made] at begins next represents₁ succeeds
  generalize (generateField g field).2.addField (field.llirField scopes.length) = g₁ at *
  unfold generateFieldInitialization at begins next succeeds
  split at begins
  · rename_i array
    rw [if_pos array] at next succeeds
    have small : (field.llirField scopes.length).valueCount < 2 ^ 32 := by
      by_contra large
      have failed : (g₁.assert ((field.llirField scopes.length).valueCount < 2 ^ 32)).failed = true := by
        rw [LlirGenerator.assert, if_neg large]
      rw [(foldl_addAssignment_grows _ _).failed failed] at succeeds
      cases succeeds
    have asserted : g₁.assert ((field.llirField scopes.length).valueCount < 2 ^ 32) = g₁ := if_pos small
    rw [asserted] at begins next
    have count : ((0 + (List.range (field.llirField scopes.length).valueCount.toNat).length : Nat) : Int) =
        (field.llirField scopes.length).valueCount := by
      rw [Nat.zero_add, List.length_range, Int.toNat_of_nonneg]
      exact ready.positive.le
    refine arrayInitialization_behaves moves lowered valid nonempty hm ready fresh small _
      (by rw [List.length_range, List.range_eq_range']) count begins represents₁ (by simp)
      fun s' locals' represents₂ written => ?_
    obtain ⟨at', holds⟩ := represents₂
    exact next s' locals' ⟨at', holds.declare ready written⟩
  · rename_i scalar
    have length : field.arrayLength = 1 := ready.scalar (by simpa [IrField.llirField, llirFieldNew] using scalar)
    rw [if_neg scalar] at next
    have stores : stepAssignment llir environment s (activation.frameAt g₁ locals) activation.callers
        (.unary .move (.literal ((field.llirField scopes.length).values.headD 0)) (field.llirField scopes.length)) =
          s.store llir (activation.frameAt g₁ locals) activation.callers (field.llirField scopes.length) 0
            ((field.llirField scopes.length).values.headD 0) := rfl
    refine behaves_initialize moves lowered valid nonempty hm ready fresh begins represents₁ stores fun s' represents₂ => ?_
    obtain ⟨at', holds⟩ := represents₂
    refine next s' _ ⟨at', holds.declare ready fun position inside => ?_⟩
    obtain rfl : position = 0 := by omega
    rw [Store.write_self isLocal, ← llirField_valueAt scopes.length, List.getD_eq_getElem?_getD, ← List.head?_eq_getElem?,
      ← List.headD_eq_head?_getD]

end

/-- The fields of a block, one after the other. -/
theorem generateBlockFields_behaves {fields : List IrField} (ready : ∀ field ∈ fields, field.Ready) {g : LlirGenerator}
    (hm : Matches (scope :: scopes) g.symbolTable) (distinct : ((scope ++ fields).map IrField.identifier).Nodup)
    (begins : (fields.foldl generateBlockField g).Begins activation.blocks)
    (succeeds : (fields.foldl generateBlockField g).failed = false) {outer : Memory} {bindings : Bindings}
    {s : MachineState} {locals : Store}
    (represents : Represents llir program activation (scope :: scopes) g (outer.push bindings) s locals)
    (next : ∀ s' locals', Represents llir program activation ((scope ++ fields) :: scopes)
      (fields.foldl generateBlockField g) (outer.push (bindings ++ declare fields)) s' locals' →
        Behaves program move n s' ending) : Behaves program move n s ending := by
  induction fields generalizing g scope bindings s locals with
  | nil =>
    simp only [declare, List.map_nil, List.append_nil] at next
    exact next s locals represents
  | cons field rest ih =>
    have fresh : field.identifier ∉ scope.map IrField.identifier := by
      rw [List.map_append, List.nodup_append] at distinct
      intro mem
      exact distinct.2.2 _ mem _ (by simp) rfl
    obtain ⟨-, hm'⟩ : g.Declares False _ ∧ _ := generateBlockField_declares hm (ready field (by simp)) fresh False.elim
    have grows := generateBlockFields_grows rest (generateBlockField g field)
    refine generateBlockField_behaves moves lowered valid nonempty (ready field (by simp)) fresh hm (grows.begins_of begins)
      (grows.succeeds succeeds) represents fun s₁ locals₁ represents₁ => ?_
    refine ih (fun other mem => ready other (List.mem_cons_of_mem _ mem)) hm' (by simpa using distinct) begins succeeds
      represents₁ fun s₂ locals₂ represents₂ => ?_
    rw [List.append_assoc, List.append_assoc] at represents₂
    exact next s₂ locals₂ represents₂

end

end Roast
