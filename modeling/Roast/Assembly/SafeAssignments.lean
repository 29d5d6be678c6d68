import Roast.Assembly.SafeExpressions

/-! Assignments run safely: an index is checked before the array is touched, and a variable keeps its type.
The fields of a block are written when it is entered. -/
namespace Roast
open LlirGenerator Systems

section
variable {llir : Llir} {environment : Environment} {program : IrProgram} {canonical : Prop}
  {activation : Activation} {g : LlirGenerator} {s : MachineState} {locals : Store}

def IndexFits (llir : Llir) (canonical : Prop) (locals : Store) (k : Nat) (array : LlirField) :
    Option LlirOperand → Prop
  | none => 0 < array.valueCount
  | some index => ∃ field, index = .field field ∧ OperandFits llir canonical locals k .int index ∧
      InBounds (locals field.identifier 0).value array

theorem IndexFits.kept {k k' : Nat} {array : LlirField} {index : Option LlirOperand} {locals' : Store}
    (h : IndexFits llir canonical locals k array index) (kept : Kept k locals locals') (hk : k ≤ k') :
    IndexFits llir canonical locals' k' array index := by
  cases index with
  | none => exact h
  | some index =>
    obtain ⟨field, rfl, fit, inside⟩ := h
    refine ⟨field, rfl, fit.kept kept hk, ?_⟩
    rwa [kept _ fit.1]

/-- A local field is read from the frame. -/
theorem operand_local {field : LlirField} (isLocal : ¬ llir.IsGlobal field.identifier) (environment : Environment)
    (s : MachineState) (frame : Frame) :
    s.operand llir environment frame (.field field) = (frame.locals field.identifier 0).value := by
  simp [MachineState.operand, MachineState.cell, isLocal]

/-- The unsigned comparison of a bounds check. -/
private theorem inBounds_of_ult {index : Word} {array : LlirField} (positive : 0 < array.valueCount)
    (length : array.valueCount < 2 ^ 63) (h : index.ult (BitVec.ofInt 64 array.valueCount) = true) :
    InBounds index array := by
  have value : (BitVec.ofInt 64 array.valueCount).toNat = array.valueCount.toNat := by
    rw [BitVec.toNat_ofInt, Int.emod_eq_of_lt positive.le (by omega)]
  have below : index.toNat < (BitVec.ofInt 64 array.valueCount).toNat := by simpa [BitVec.ult] using h
  unfold InBounds
  omega

end

section
variable {llir : Llir} {environment : Environment} {program : IrProgram} {canonical : Prop}
  {activation : Activation} (valid : activation.Valid llir)
  (callers : canonical → ∀ frame ∈ activation.callers, frame.locals.Canonical) (lowered : Lowered program llir)
include valid callers

/-- A checked index is in range; otherwise the program ends. -/
private theorem safe_boundsCheck {g : LlirGenerator} {array index : LlirField} {n k : Nat} {s : MachineState}
    {locals : Store}
    (begins : (generateBoundsCheck g (.field index) (BitVec.ofInt 64 array.valueCount)).Begins activation.blocks)
    (at' : AtEnd llir canonical activation g s locals) (fit : OperandFits llir canonical locals k .int (.field index))
    (positive : 0 < array.valueCount) (length : array.valueCount < 2 ^ 63)
    (next : ∀ m < n, ∀ s', InBounds (locals index.identifier 0).value array →
      AtEnd llir canonical activation (generateBoundsCheck g (.field index) (BitVec.ofInt 64 array.valueCount)) s' locals →
      Safe llir environment program canonical m s') : Safe llir environment program canonical n s := by
  have beginsTrap := (close_grows _ _ _).begins_of begins
  have closed : ({ llirBlockNew g.blockCounter with terminal := .shitYourself (-1) } : LlirBlock) ∈ activation.blocks :=
    begins.closed
  have literal : OperandFits llir canonical locals 0 .int (.literal (BitVec.ofInt 64 array.valueCount)) := by
    simp [OperandFits]
  refine safe_branch valid callers beginsTrap at' (operandsOwned_pair rfl fit literal) (fun _ => ⟨_, valid.block_of_mem closed, rfl, rfl⟩) (fun _ m hm s₁ at₁ => ?_)
    fun holds m hm s₁ at₁ => next m hm s₁ ?_ at₁
  · refine safe_terminal valid callers begins.closed (g := (g.branchNew .less true (.field index)
      (.literal (BitVec.ofInt 64 array.valueCount))).2) at₁ ⟨operandsOwned_of (by simp [LlirTerminal.operands]),
        by simp, by simp⟩ fun m' _ => ?_
    refine at₁.safe_stopped callers ?_ ?_ ?_ m' <;> simp [stepTerminal]
  · rw [operand_local fit.2.1] at holds
    exact inBounds_of_ult positive length holds

include lowered

/-- A variable is read into a temporary. -/
private theorem safe_addRead {g : LlirGenerator} {field destination : LlirField} {index : Option LlirOperand}
    (begins : (g.addRead field destination index).Begins activation.blocks) {n k : Nat} {s : MachineState}
    {locals : Store} (at' : AtEnd llir canonical activation g s locals)
    (visible : Visible llir activation.method.arguments locals field)
    (inside : IndexFits llir canonical locals k field index)
    (isLocal : ¬ llir.IsGlobal destination.identifier) (undeclared : ¬ destination.IsBool)
    (next : ∀ m < n, ∀ s' value, AtEnd llir canonical activation (g.addRead field destination index) s'
        (locals.write llir destination 0 value) → Safe llir environment program canonical m s') :
    Safe llir environment program canonical n s := by
  cases index with
  | none =>
    exact safe_unary valid callers lowered.named begins at' (visible.operandsOwned valid inside)
      (fun _ _ isBool => absurd isBool undeclared) (fun global => absurd global isLocal)
      fun m hm s' at₁ => next m hm s' _ at₁
  | some index =>
    obtain ⟨field', rfl, fit, inside⟩ := inside
    have position := operand_local fit.2.1 environment s (activation.frameAt g locals)
    have inside' : InBounds (s.operand llir environment (activation.frameAt g locals) (.field field')) field :=
      position ▸ inside
    refine safe_assignment valid callers begins at' ⟨operandsOwned_single rfl fit, ?_, by simp, ?_, ?_⟩ fun m hm _ => ?_
    · rintro _ ⟨rfl⟩
      exact visible.declared
    · rintro _ _ _ ⟨rfl, rfl, rfl⟩
      exact inside'
    · rintro _ _ _ _ ⟨rfl, rfl, rfl, rfl⟩ _ owned method found
      obtain rfl := Option.some.inj (valid.found.symm.trans found)
      exact visible.written owned _ inside'
    · simp only [stepAssignment, inside', if_true]
      exact next m hm _ _ (at'.store lowered.named _ 0 (fun _ isBool => absurd isBool undeclared)
        fun global => absurd global isLocal)

/-- A value is stored into a variable. -/
private theorem safe_addWrite {g : LlirGenerator} {field : LlirField} {source : LlirOperand}
    {index : Option LlirOperand}
    {type : IrDataType} (begins : (g.addWrite field source index).Begins activation.blocks) {n k : Nat}
    {s : MachineState} {locals : Store} (at' : AtEnd llir canonical activation g s locals)
    (visible : Visible llir activation.method.arguments locals field)
    (inside : IndexFits llir canonical locals k field index)
    (fit : OperandFits llir canonical locals k type source) (bool : field.IsBool → type = .bool)
    (next : ∀ m < n, ∀ s' position value, AtEnd llir canonical activation (g.addWrite field source index) s'
        (locals.write llir field position value) → Safe llir environment program canonical m s') :
    Safe llir environment program canonical n s := by
  have value (asked : canonical) (isBool : field.IsBool) :
      CanonicalWord (s.operand llir environment (activation.frameAt g locals) source) :=
    fit.bool_value asked (bool isBool) environment s _ _
  cases index with
  | none =>
    have added : (g.addMove source field).Begins activation.blocks := begins
    exact safe_unary valid callers lowered.named added at' (operandsOwned_single rfl fit)
      (fun asked _ => value asked) visible.global fun m hm s' at₁ => next m hm s' _ _ at₁
  | some index =>
    obtain ⟨field', rfl, fit', inside⟩ := inside
    have position := operand_local fit'.2.1 environment s (activation.frameAt g locals)
    have inside' : InBounds (s.operand llir environment (activation.frameAt g locals) (.field field')) field :=
      position ▸ inside
    have added : (g.addAssignment (.arrayUpdate (.field field') source field)).Begins activation.blocks := begins
    refine safe_assignment valid callers added at' ⟨operandsOwned_pair rfl fit' fit, ?_, ?_, by simp, by simp⟩
      fun m hm _ => ?_
    · rintro _ ⟨rfl⟩
      exact visible.declared
    · rintro _ _ _ ⟨rfl, rfl, rfl⟩
      exact inside'
    · simp only [stepAssignment, inside', if_true]
      exact next m hm _ _ _ (at'.store lowered.named _ _ value visible.global)

end

section
variable (llir : Llir) (environment : Environment) (program : IrProgram) (canonical : Prop) (activation : Activation)

def ContinuesAt (n block index : Nat) (scopes : List (List IrField)) : Prop :=
  ∀ m ≤ n, ∀ s locals, AtPoint llir canonical activation block index s locals →
    Owned activation.method.arguments locals scopes → Safe llir environment program canonical m s

abbrev Continues (n : Nat) (g : LlirGenerator) (scopes : List (List IrField)) : Prop :=
  ContinuesAt llir environment program canonical activation n g.currentBlock.id g.currentBlock.assignments.length scopes

end

section
variable {llir : Llir} {environment : Environment} {program : IrProgram} {canonical : Prop}
  {activation : Activation} (valid : activation.Valid llir)
  (callers : canonical → ∀ frame ∈ activation.callers, frame.locals.Canonical) (lowered : Lowered program llir)
  {N : Nat} (calls : CallsSafe llir environment program canonical N) {c : Context} (fits : ContextFits program c)

theorem ContinuesAt.mono {n m block index : Nat} {scopes : List (List IrField)}
    (h : ContinuesAt llir environment program canonical activation n block index scopes) (hm : m ≤ n) :
    ContinuesAt llir environment program canonical activation m block index scopes :=
  fun m' hm' => h m' (hm'.trans hm)

include valid callers lowered fits

/-- The write of an assignment is safe if what follows is. -/
private theorem generateAssignmentWrite_safe (g : LlirGenerator) (hm : Matches c.scopes g.symbolTable)
    {assignOperator : IrAssignOperator} {identifier : String} {field : LlirField} {index : Option LlirOperand}
    {source : LlirOperand} {type : IrDataType}
    (begins : (generateAssignmentWrite g assignOperator field index source).Begins activation.blocks) {n : Nat}
    {s : MachineState} {locals : Store} (at' : AtEnd llir canonical activation g s locals)
    (owned : Owned activation.method.arguments locals c.scopes) (stored : storage c.scopes identifier = some field)
    (inside : IndexFits llir canonical locals g.temporaryCounter field index)
    (fit : OperandFits llir canonical locals g.temporaryCounter type source) (bool : field.IsBool → type = .bool)
    (int : assignOperator ≠ .set → ¬ field.IsBool)
    (next : Continues llir environment program canonical activation n
      (generateAssignmentWrite g assignOperator field index source) c.scopes) :
    Safe llir environment program canonical n s := by
  have visible := owned.visible lowered hm fits.bottom stored
  by_cases set : assignOperator = .set
  · have unfolded : generateAssignmentWrite g assignOperator field index source = g.addWrite field source index :=
      if_pos set
    rw [unfolded] at begins next
    exact safe_addWrite valid callers lowered begins at' visible inside fit bool fun m hmn s' position value at₁ =>
      next m hmn.le s' _ at₁ (owned.write hm llir stored position value)
  · have unfolded : generateAssignmentWrite g assignOperator field index source =
        let read := g.newLocalTemporary.2.addRead field g.newLocalTemporary.1 index
        (read.newLocalTemporary.2.addAssignment (.binary (assignmentType assignOperator) (.field g.newLocalTemporary.1)
          source read.newLocalTemporary.1)).addWrite field (.field read.newLocalTemporary.1) index := if_neg set
    rw [unfolded] at begins next
    have fresh := newLocalTemporary_fresh lowered.named g
    have fresh' := newLocalTemporary_fresh lowered.named (g.newLocalTemporary.2.addRead field g.newLocalTemporary.1 index)
    have counter := (addRead_grows g.newLocalTemporary.2 field g.newLocalTemporary.1 index).temporaryCounter
    have counter' : g.temporaryCounter ≤ (g.newLocalTemporary.2.addRead field g.newLocalTemporary.1 index).temporaryCounter :=
      (newLocalTemporary_grows g).temporaryCounter.trans counter
    have beginsBinary := (addWrite_grows _ _ _ _).begins_of begins
    have beginsRead := ((newLocalTemporary_grows _).trans (addAssignment_grows _ _)).begins_of beginsBinary
    refine safe_addRead valid callers lowered beginsRead at' visible inside fresh.isLocal fresh.undeclared
      fun m₁ hm₁ s₁ old at₁ => ?_
    have kept₁ : Kept g.temporaryCounter locals (locals.write llir g.newLocalTemporary.1 0 old) :=
      Kept.write fresh.name locals 0 old
    have left : OperandFits llir canonical (locals.write llir g.newLocalTemporary.1 0 old)
        (g.newLocalTemporary.2.addRead field g.newLocalTemporary.1 index).temporaryCounter .int
        (.field g.newLocalTemporary.1) := fresh.fits locals counter (by simp)
    refine safe_binary valid callers lowered.named beginsBinary at₁
      (operandsOwned_pair rfl left (fit.kept kept₁ counter'))
      fresh'.undeclared (fun global => absurd global fresh'.isLocal) fun m₂ hm₂ s₂ value _ at₂ => ?_
    have kept : Kept g.temporaryCounter locals (Store.write llir _ _ 0 value) :=
      kept₁.trans (Kept.write fresh'.name _ 0 value) counter'
    have noBool : canonical → IrDataType.int = .bool → CanonicalWord value := by simp
    have computed := fresh'.fits (locals.write llir g.newLocalTemporary.1 0 old) le_rfl noBool
    refine safe_addWrite valid callers lowered begins at₂ (visible.kept kept)
      (inside.kept kept (counter'.trans (Nat.le_succ _))) computed (fun isBool => absurd isBool (int set))
      fun m₃ hm₃ s₃ position result at₃ => ?_
    exact next m₃ (by omega) s₃ _ at₃ ((owned.kept hm kept).write hm llir stored position result)

include calls

/-- Evaluating a source is safe if what follows is. -/
private theorem generateSource_safe (g : LlirGenerator) (hm : Matches c.scopes g.symbolTable)
    {source : Option IrExpression} {type : IrDataType}
    (typed : ∀ expression, source = some expression → ExpressionTyped readyRules c expression type)
    (begins : (generateSource g source).2.Begins activation.blocks) {n : Nat} (hn : n ≤ N)
    {s : MachineState} {locals : Store} (at' : AtEnd llir canonical activation g s locals)
    (owned : Owned activation.method.arguments locals c.scopes)
    (next : EvaluatesSafely llir environment program canonical activation n g.temporaryCounter
      (generateSource g source).2 locals type (generateSource g source).1) :
    Safe llir environment program canonical n s := by
  cases source with
  | none => exact next n le_rfl s locals at' (.refl _ _) fun _ _ => .inr rfl
  | some expression =>
    exact generateExpression_safe valid callers lowered calls fits g hm expression (typed expression rfl) begins hn
      at' owned next

/-- The index of an assignment is evaluated and checked. -/
private theorem generateAssignmentIndex_safe (g : LlirGenerator) (hm : Matches c.scopes g.symbolTable)
    {location : IrLocation} {field : IrField} {type : IrDataType}
    (typed : LocationTyped readyRules c location field type)
    (begins : (generateAssignmentIndex (g.lookup location).2 (g.lookup location).1 location).2.Begins activation.blocks)
    {n : Nat} (hn : n ≤ N) {s : MachineState} {locals : Store} (at' : AtEnd llir canonical activation g s locals)
    (owned : Owned activation.method.arguments locals c.scopes)
    (next : ∀ m ≤ n, ∀ s' locals', AtEnd llir canonical activation
        (generateAssignmentIndex (g.lookup location).2 (g.lookup location).1 location).2 s' locals' →
      Kept g.temporaryCounter locals locals' →
      IndexFits llir canonical locals'
        (generateAssignmentIndex (g.lookup location).2 (g.lookup location).1 location).2.temporaryCounter
        (g.lookup location).1 (generateAssignmentIndex (g.lookup location).2 (g.lookup location).1 location).1 →
      Safe llir environment program canonical m s') : Safe llir environment program canonical n s := by
  have resolved : c.field location.identifier = some field := by cases typed <;> assumption
  obtain ⟨level, -, result, stored, ready⟩ := lookup_found hm location resolved
  have count : (g.lookup location).1.valueCount = field.arrayLength := congrArg LlirField.valueCount result
  have at₁ : AtEnd llir canonical activation (g.lookup location).2 s locals := by
    unfold AtEnd
    rw [lookup_currentBlock]
    exact at'
  cases typed with
  | scalar found => exact next n le_rfl s locals at₁ (.refl _ _) (ready.positive.trans_eq count.symm)
  | @element node identifier index _ found array hi =>
    have follows : g.Follows False _ _ := lookup_follows hm (.element node identifier index) found
    refine generateExpression_safe valid callers lowered calls fits _ (follows.matchesScopes hm) index hi
      ((generateBoundsCheck_grows _ _ _).begins_of begins) hn at₁ owned fun m₁ hm₁ s₁ locals₁ at₁ kept₁ fit₁ => ?_
    have kept := (Kept.refl g.temporaryCounter locals).trans kept₁ (lookup_temporaryCounter g _).ge
    obtain ⟨operand, value, -⟩ := generateExpression_field (g.lookup (.element node identifier index)).2 index
    have unfolded : generateAssignmentIndex (g.lookup (.element node identifier index)).2
        (g.lookup (.element node identifier index)).1 (.element node identifier index) =
        (some (.field operand), generateBoundsCheck (generateExpression
          (g.lookup (.element node identifier index)).2 index).2 (.field operand)
          (BitVec.ofInt 64 (g.lookup (.element node identifier index)).1.valueCount)) := by
      rw [← value]
      rfl
    rw [unfolded] at begins next
    rw [value] at fit₁
    refine safe_boundsCheck valid callers begins at₁ fit₁ (count ▸ ready.positive) (count ▸ ready.length)
      fun m₂ hm₂ s₂ inside at₂ => next m₂ (hm₂.le.trans hm₁) s₂ _ at₂ kept ⟨operand, rfl, ?_, inside⟩
    exact fit₁

/-- An assignment is safe if what follows is. -/
theorem generateAssignment_safe (g : LlirGenerator) (hm : Matches c.scopes g.symbolTable)
    {assignment : IrAssignment} (typed : AssignmentTyped readyRules c assignment)
    (begins : (generateAssignment g assignment).Begins activation.blocks) {n : Nat} (hn : n ≤ N)
    {s : MachineState} {locals : Store} (at' : AtEnd llir canonical activation g s locals)
    (owned : Owned activation.method.arguments locals c.scopes)
    (next : Continues llir environment program canonical activation n (generateAssignment g assignment) c.scopes) :
    Safe llir environment program canonical n s := by
  obtain ⟨location, assignOperator, expression⟩ := assignment
  obtain ⟨field, type, hl, -, scalar, int, hx⟩ := typed.location
  have resolved : c.field location.identifier = some field := by cases hl <;> assumption
  obtain ⟨level, -, result, stored, ready⟩ := lookup_found hm location resolved
  have isBool : (g.lookup location).1.IsBool → type = .bool := by
    rintro ⟨declaration, mem, bool⟩
    obtain rfl : declaration = field := by
      rw [result] at mem
      exact (Option.some.inj mem).symm
    cases hl with
    | scalar => cases type' : declaration.type <;> simp_all [IrDataType.element, IrDataType.isArray]
    | element => exact bool
  have first : g.Follows False _ _ := generateAssignmentIndex_follows g hm hl
  have growsWrite := generateAssignmentWrite_grows (generateSource (generateAssignmentIndex (g.lookup location).2
    (g.lookup location).1 location).2 expression).2 assignOperator (g.lookup location).1 (generateAssignmentIndex
      (g.lookup location).2 (g.lookup location).1 location).1 (generateSource (generateAssignmentIndex
        (g.lookup location).2 (g.lookup location).1 location).2 expression).1
  have growsSource := generateSource_grows (generateAssignmentIndex (g.lookup location).2
    (g.lookup location).1 location).2 expression
  have beginsSource := growsWrite.begins_of begins
  refine generateAssignmentIndex_safe valid callers lowered calls fits g hm hl (growsSource.begins_of beginsSource)
    hn at' owned fun m₁ hm₁ s₁ locals₁ at₁ kept₁ inside => ?_
  refine generateSource_safe valid callers lowered calls fits _ (first.matchesScopes hm) hx beginsSource
    (hm₁.trans hn) at₁ (owned.kept hm kept₁) fun m₂ hm₂ s₂ locals₂ at₂ kept₂ fit => ?_
  have kept := kept₁.trans kept₂ ((lookup_grows g location).trans
    (generateAssignmentIndex_grows _ (g.lookup location).1 location)).temporaryCounter
  refine generateAssignmentWrite_safe valid callers lowered fits _ ?_ begins at₂ (owned.kept hm kept) (result ▸ stored)
    (inside.kept kept₂ growsSource.temporaryCounter) fit isBool (fun compound bool => ?_)
    (next.mono (hm₂.trans hm₁))
  · have second : Follows False _ _ _ := generateSource_follows _ (first.matchesScopes hm) hx
    exact second.matchesScopes (first.matchesScopes hm)
  · cases (int compound).symm.trans (isBool bool)

/-- A call as a statement is safe if what follows is. -/
theorem generateMethodCall_safe (g : LlirGenerator) (hm : Matches c.scopes g.symbolTable) {identifier : String}
    {arguments : IrArguments} {type : IrDataType} (typed : CallTyped readyRules c identifier arguments type)
    (begins : (generateMethodCall g identifier arguments).2.Begins activation.blocks) {n : Nat} (hn : n ≤ N)
    {s : MachineState} {locals : Store} (at' : AtEnd llir canonical activation g s locals)
    (owned : Owned activation.method.arguments locals c.scopes)
    (next : Continues llir environment program canonical activation n (generateMethodCall g identifier arguments).2
      c.scopes) : Safe llir environment program canonical n s := by
  have follows : g.Follows False _ _ := newLocalTemporary_follows g
  have beginsArguments : (generateArguments g.newLocalTemporary.2 arguments).2.Begins activation.blocks :=
    (addAssignment_grows _ _).begins_of begins
  exact safe_methodCall valid callers lowered calls fits g typed begins hn
    (fun h => generateImportedArguments_safe valid callers lowered calls fits _ (follows.matchesScopes hm) arguments h
      beginsArguments hn at' owned)
    (fun fields h => generateArguments_safe valid callers lowered calls fits _ (follows.matchesScopes hm) arguments h
      beginsArguments hn at' owned)
    fun m hmn s' locals' at₁ kept _ => next m hmn s' locals' at₁ (owned.kept hm kept)

theorem generateForUpdate_safe (g : LlirGenerator) (hm : Matches c.scopes g.symbolTable) {update : IrForUpdate}
    (typed : ForUpdateTyped readyRules c update) (begins : (generateForUpdate g update).Begins activation.blocks)
    {n : Nat} (hn : n ≤ N) {s : MachineState} {locals : Store} (at' : AtEnd llir canonical activation g s locals)
    (owned : Owned activation.method.arguments locals c.scopes)
    (next : Continues llir environment program canonical activation n (generateForUpdate g update) c.scopes) :
    Safe llir environment program canonical n s := by
  cases typed with
  | methodCall h => exact generateMethodCall_safe valid callers lowered calls fits g hm h begins hn at' owned next
  | assignment h => exact generateAssignment_safe valid callers lowered calls fits g hm h begins hn at' owned next

end

/-- A field is declared once all its words are written. -/
theorem Owned.declare {arguments : List LlirField} {locals locals' : Store} {scope : List IrField}
    {scopes : List (List IrField)} {tables : List (List (String × LlirField))}
    (h : Owned arguments locals (scope :: scopes)) (hm : Matches (scope :: scopes) tables) (nonempty : scopes ≠ [])
    {field : IrField} (ready : field.Ready) (fresh : field.identifier ∉ scope.map IrField.identifier)
    (same : ∀ name, name ≠ (field.llirField scopes.length).identifier → locals' name = locals name)
    (written : ∀ position : Nat, position < field.arrayLength →
      (locals' (field.llirField scopes.length).identifier position).origin = .stored (field.llirField scopes.length)) :
    Owned arguments locals' ((scope ++ [field]) :: scopes) := by
  have positive := List.length_pos_iff.mpr nonempty
  cases hm with
  | cons readyScope _ _ rest =>
    refine ⟨fun _ other mem position small => ?_, ?_⟩
    · obtain mem | mem := List.mem_append.mp mem
      · rw [same _ fun name => fresh ?_]
        · exact h.1 nonempty other mem position small
        · rw [← (llirField_identifier_inj positive positive (readyScope other mem).identifier ready.identifier name).2]
          exact List.mem_map_of_mem mem
      · obtain rfl := List.mem_singleton.mp mem
        exact .inl (written position small)
    · refine h.2.of_same rest fun level positive' below other readyOther => same _ fun name => below.ne ?_
      exact (llirField_identifier_inj positive' positive readyOther.identifier ready.identifier name).1

section
variable {llir : Llir} {environment : Environment} {program : IrProgram} {canonical : Prop}
  {activation : Activation} (valid : activation.Valid llir)
  (callers : canonical → ∀ frame ∈ activation.callers, frame.locals.Canonical) (lowered : Lowered program llir)

private theorem literalToInt64_canonical {literal : IrLiteral} (ready : literal.Ready) (bool : literal.type = .bool)
    (plain : ¬ (literal.negate = true ∧ literal.value = 1)) : CanonicalWord (literalToInt64 literal) := by
  unfold literalToInt64
  obtain zero | one := ready.bool bool
  · left
    rw [zero]
    split <;> rfl
  · right
    rw [if_neg fun negated => plain ⟨negated.1, one⟩, one]

/-- The words of a boolean declaration are 0 or 1 unless one is a negated `true`. -/
theorem IrField.Ready.values_canonical {field : IrField} (ready : field.Ready) (level : Nat)
    (plain : ∀ declaration ∈ (field.llirField level).declaration, ¬ declaration.NegatesTrue)
    (bool : (field.llirField level).IsBool) : ∀ value ∈ (field.llirField level).values, CanonicalWord value := by
  obtain ⟨_, ⟨rfl⟩, bool⟩ := bool
  have plain := plain field rfl
  have zeros (count : Nat) (value : Word) (mem : value ∈ List.replicate count (0 : Word)) : CanonicalWord value :=
    .inl (List.eq_of_mem_replicate mem)
  intro value mem
  unfold IrField.llirField llirFieldNew getFieldInitializer at mem
  cases given : field.initializer with
  | none =>
    rw [given] at mem
    exact zeros _ value mem
  | some initializer =>
    rw [given] at mem
    obtain mem | mem := List.mem_append.mp mem
    · obtain ⟨literal, listed, rfl⟩ := List.mem_map.mp mem
      obtain ⟨literalReady, same⟩ := ready.literals initializer given literal listed
      refine literalToInt64_canonical literalReady ?_ fun negated => plain ⟨bool, initializer, given, literal, listed, negated⟩
      rw [bool] at same
      cases type : literal.type with
      | bool => rfl
      | int | char => rw [type] at same; cases same
    · exact zeros _ value (List.mem_of_mem_drop mem)

theorem canonicalWord_getD {values : List Word} (all : ∀ value ∈ values, CanonicalWord value) (position : Nat) :
    CanonicalWord (values.getD position 0) := by
  rw [List.getD_eq_getElem?_getD]
  cases element : values[position]? with
  | none => exact .inl rfl
  | some value => exact all value (List.mem_of_getElem? element)

structure Initialized (locals locals' : Store) (field : LlirField) (count : Int) : Prop where
  same : ∀ name, name ≠ field.identifier → locals' name = locals name
  written : ∀ position : Nat, position < count → (locals' field.identifier position).origin = .stored field

theorem Initialized.write {locals locals' : Store} {field : LlirField} {count : Nat}
    (h : Initialized locals locals' field count) (isLocal : ¬ llir.IsGlobal field.identifier) (value : Word) :
    Initialized locals (locals'.write llir field count value) field ↑(count + 1) := by
  refine ⟨fun name other => (Store.write_other llir locals' field count value other).trans (h.same name other),
    fun position small => ?_⟩
  simp only [Store.write, isLocal, if_false, Store.set, true_and]
  split
  · rfl
  · exact h.written position (by omega)

include valid callers lowered

/-- The loop that initializes an array; `count` elements are written already. -/
private theorem arrayInitialization_safe {field : LlirField} (isLocal : ¬ llir.IsGlobal field.identifier)
    (declared : ∃ declaration ∈ field.declaration, declaration.arrayLength = field.valueCount)
    (plain : (∀ declaration ∈ field.declaration, ¬ declaration.NegatesTrue) → field.IsBool →
      ∀ value ∈ field.values, CanonicalWord value)
    (small : field.valueCount < 2 ^ 32) {start : Store} (indices : List Nat) {g : LlirGenerator} {count : Nat}
    (rest : List.range' count indices.length = indices) (whole : ↑(count + indices.length) = field.valueCount)
    (begins : (indices.map fun i => LlirAssignment.arrayUpdate (.literal (BitVec.ofNat 64 i))
      (.literal (field.values.getD i 0)) field).foldl addAssignment g |>.Begins activation.blocks)
    {n : Nat} {s : MachineState} {locals : Store} (at' : AtEnd llir canonical activation g s locals)
    (initialized : Initialized start locals field count)
    (next : ∀ m ≤ n, ∀ s' locals', AtEnd llir canonical activation
        ((indices.map fun i => LlirAssignment.arrayUpdate (.literal (BitVec.ofNat 64 i))
          (.literal (field.values.getD i 0)) field).foldl addAssignment g) s' locals' →
      Initialized start locals' field field.valueCount → Safe llir environment program canonical m s') :
    Safe llir environment program canonical n s := by
  induction indices generalizing g count n s locals with
  | nil => exact next n le_rfl s locals at' (whole ▸ initialized)
  | cons i indices ih =>
    rw [List.length_cons, List.range'_succ, List.cons.injEq] at rest
    obtain ⟨rfl, rest⟩ := rest
    rw [List.length_cons] at whole
    have position : (BitVec.ofNat 64 count).toNat = count := by
      rw [BitVec.toNat_ofNat, Nat.mod_eq_of_lt (by omega)]
    have inside : InBounds (BitVec.ofNat 64 count) field := by
      unfold InBounds
      omega
    rw [List.map_cons, List.foldl_cons] at begins next
    have beginsFirst := (foldl_addAssignment_grows _ _).begins_of begins
    refine safe_assignment valid callers beginsFirst at' ⟨operandsOwned_of (by simp [LlirAssignment.operands]), ?_, ?_,
      by simp, by simp⟩ fun m hm keeps => ?_
    · rintro _ ⟨rfl⟩
      exact declared
    · rintro _ _ _ ⟨rfl, rfl, rfl⟩
      exact inside
    · have stored := at'.store lowered.named (.arrayUpdate (.literal (BitVec.ofNat 64 count))
        (.literal (field.values.getD count 0)) field) (BitVec.ofNat 64 count).toNat
        (fun asked bool => canonicalWord_getD (plain ((keeps asked).declared isLocal) bool) count)
        fun global => absurd global isLocal
      simp only [stepAssignment, MachineState.operand, inside, if_true]
      rw [position] at stored ⊢
      exact ih rest (by omega) begins stored (initialized.write isLocal _) fun m' hm' => next m' (hm'.trans hm.le)

/-- A field of a block is declared and written. -/
theorem generateBlockField_safe {scope : List IrField} {scopes : List (List IrField)} (nonempty : scopes ≠ [])
    {g : LlirGenerator} (hm : Matches (scope :: scopes) g.symbolTable) {field : IrField} (ready : field.Ready)
    (fresh : field.identifier ∉ scope.map IrField.identifier)
    (begins : (generateBlockField g field).Begins activation.blocks)
    (succeeds : (generateBlockField g field).failed = false) {n : Nat} {s : MachineState} {locals : Store}
    (at' : AtEnd llir canonical activation g s locals)
    (owned : Owned activation.method.arguments locals (scope :: scopes))
    (next : Continues llir environment program canonical activation n (generateBlockField g field)
      ((scope ++ [field]) :: scopes)) : Safe llir environment program canonical n s := by
  have made := generateField_field hm field
  have positive := List.length_pos_iff.mpr nonempty
  have isLocal : ¬ llir.IsGlobal (field.llirField scopes.length).identifier :=
    lowered.named.not_isGlobal (llirField_not_identifier positive field)
  have current : ((generateField g field).2.addField (generateField g field).1).currentBlock.id = g.currentBlock.id ∧
      ((generateField g field).2.addField (generateField g field).1).currentBlock.assignments =
        g.currentBlock.assignments := by
    unfold generateField LlirGenerator.assert
    dsimp only
    split <;> exact ⟨rfl, rfl⟩
  have at₁ : AtEnd llir canonical activation ((generateField g field).2.addField (generateField g field).1) s locals := by
    unfold AtEnd
    rw [current.1, current.2]
    exact at'
  have unfolded : generateBlockField g field = generateFieldInitialization
      ((generateField g field).2.addField (generateField g field).1) (generateField g field).1 := rfl
  rw [unfolded] at begins next succeeds
  rw [made] at begins next at₁ succeeds
  generalize (generateField g field).2.addField (field.llirField scopes.length) = g₁ at *
  unfold generateFieldInitialization at begins next succeeds
  split at begins
  · rename_i array
    rw [if_pos array] at next succeeds
    have small : (field.llirField scopes.length).valueCount < 2 ^ 32 := by
      by_contra large
      have failed : (g₁.assert ((field.llirField scopes.length).valueCount < 2 ^ 32)).failed = true := by
        rw [LlirGenerator.assert, if_neg large]
      rw [(foldl_addAssignment_grows _ _).failed failed] at succeeds
      cases succeeds
    have asserted : g₁.assert ((field.llirField scopes.length).valueCount < 2 ^ 32) = g₁ := if_pos small
    rw [asserted] at begins next
    have count : ((0 + (List.range (field.llirField scopes.length).valueCount.toNat).length : Nat) : Int) =
        (field.llirField scopes.length).valueCount := by
      rw [Nat.zero_add, List.length_range, Int.toNat_of_nonneg]
      exact ready.positive.le
    refine arrayInitialization_safe valid callers lowered isLocal ⟨field, rfl, rfl⟩
      (ready.values_canonical scopes.length) small _
      (by rw [List.length_range, List.range_eq_range']) count begins at₁ ⟨fun _ _ => rfl, fun position small => by omega⟩
      fun m hmn s' locals' at₂ initialized => ?_
    exact next m hmn s' locals' at₂ (owned.declare hm nonempty ready fresh initialized.same initialized.written)
  · rename_i scalar
    have length : field.arrayLength = 1 := ready.scalar (by simpa [IrField.llirField, llirFieldNew] using scalar)
    rw [if_neg scalar] at next
    refine safe_unary valid callers lowered.named begins at₁ (operandsOwned_of (by simp))
      (fun _ keeps bool => ?_) (fun global => absurd global isLocal) fun m hmn s' at₂ => ?_
    · have canonical := canonicalWord_getD (ready.values_canonical scopes.length (keeps.declared isLocal) bool) 0
      rwa [← List.headD_eq_getD] at canonical
    have start : Initialized locals locals (field.llirField scopes.length) ((0 : Nat) : Int) :=
      ⟨fun _ _ => rfl, fun position small => by omega⟩
    have initialized := start.write isLocal ((field.llirField scopes.length).values.headD 0)
    refine next m hmn.le s' _ at₂ (owned.declare hm nonempty ready fresh initialized.same fun position small => ?_)
    exact initialized.written position (by omega)

end

end Roast
