import Roast.Semantics.CheckerExpressions
import Roast.Systems.Loops

/-! The checker decides the type system on declarations, statements, methods and whole programs. -/
namespace Roast
open Semantics

private theorem IrLiteralType.dataType_ne_void (type : IrLiteralType) : type.dataType ≠ .void := by
  cases type <;> simp [dataType]

private theorem analyzeLiteral_error (s : Semantics) (literal : IrLiteral) :
    (analyzeLiteral s literal).2.error = false ↔ s.error = false ∧ literal.Accepted :=
  errorIf_error _ _ _

/-- Once the first literal has fixed the type, the loop compares the others with it. -/
private theorem foldl_analyzeInitializerLiteral (literals : List IrLiteral) {type : IrDataType}
    (value : type ≠ .void) (s : Semantics) :
    (literals.foldl analyzeInitializerLiteral (type, s)).1 = type ∧
    ((literals.foldl analyzeInitializerLiteral (type, s)).2.error = false ↔
      s.error = false ∧ ∀ literal ∈ literals, literal.Accepted ∧ literal.type.dataType = type) := by
  induction literals generalizing s with
  | nil => simp
  | cons literal rest ih =>
    have step : analyzeInitializerLiteral (type, s) literal = (type, (analyzeLiteral s literal).2.errorIf
        ((analyzeLiteral s literal).1 ≠ type) "Inconsistent types in array initializer") := by
      simp only [analyzeInitializerLiteral, value, if_false]
    obtain ⟨htype, herror⟩ := ih ((analyzeLiteral s literal).2.errorIf
      ((analyzeLiteral s literal).1 ≠ type) "Inconsistent types in array initializer")
    rw [List.foldl_cons, step]
    refine ⟨htype, herror.trans ?_⟩
    rw [errorIf_error, analyzeLiteral_error, List.forall_mem_cons]
    simp only [analyzeLiteral, ne_eq, not_not, and_assoc]

/-- An initializer is accepted if its literals are, all of the element type. -/
private theorem analyzeInitializer_spec (s : Semantics) (initializer : IrInitializer) :
    (analyzeInitializer s initializer).1 =
      (if initializer.array then initializer.elementType.array else initializer.elementType) ∧
    ((analyzeInitializer s initializer).2.error = false ↔ s.error = false ∧
      ∀ literal ∈ initializer.literals,
        literal.Accepted ∧ literal.type.dataType = initializer.elementType) := by
  unfold analyzeInitializer IrInitializer.elementType
  cases initializer.literals with
  | nil => simp
  | cons literal rest =>
    have first : analyzeInitializerLiteral (.void, s) literal = analyzeLiteral s literal := by
      simp [analyzeInitializerLiteral]
    obtain ⟨htype, herror⟩ := foldl_analyzeInitializerLiteral rest
      literal.type.dataType_ne_void (analyzeLiteral s literal).2
    have pair : analyzeLiteral s literal = (literal.type.dataType, (analyzeLiteral s literal).2) := rfl
    rw [List.foldl_cons, first, pair]
    refine ⟨by simp only [htype, List.head?_cons, Option.map_some, Option.getD_some], ?_⟩
    rw [herror, analyzeLiteral_error]
    simp [and_assoc]

/-- A declaration fails where the scope has its name, or a method on the outermost level. -/
private theorem declareField_error (s : Semantics) (field : IrField) : (s.declareField field).error = false ↔
    s.error = false ∧ s.fieldsTableGetLocal field.identifier = none ∧
      (s.fieldsTableStack.length = 1 → s.methodsTableGet field.identifier = none) := by
  unfold declareField
  split
  · rename_i redeclared
    obtain ⟨_, h⟩ := Option.isSome_iff_exists.mp redeclared
    simp [h]
  · rename_i fresh
    split
    · rename_i global
      obtain ⟨_, h⟩ := Option.isSome_iff_exists.mp global.2
      simp [global.1, h]
    · rename_i free
      simp_all [fieldsTableAdd]

@[simp] theorem IrField.analyzed_identifier (field : IrField) :
    field.analyzed.identifier = field.identifier := by
  unfold IrField.analyzed
  split <;> rfl

@[simp] theorem IrField.analyzed_type (field : IrField) : field.analyzed.type = field.type := by
  unfold IrField.analyzed
  split <;> rfl

@[simp] theorem IrField.analyzed_node (field : IrField) : field.analyzed.node = field.node := by
  unfold IrField.analyzed
  split <;> rfl

/-- A field fails where its declaration does or it is not accepted. -/
private theorem analyzeField_error (s : Semantics) (field : IrField) : (analyzeField s field).error = false ↔
    (s.declareField field.analyzed).error = false ∧ field.Accepted := by
  unfold analyzeField IrField.Accepted
  dsimp only
  cases field.initializer with
  | some initializer =>
    obtain ⟨htype, herror⟩ := analyzeInitializer_spec (s.declareField field.analyzed) initializer
    simp only [errorIf_error, herror, htype, ne_eq, not_not, and_assoc]
  | none =>
    simp only [errorIf_error]
    split
    · rename_i undeclared
      simp [undeclared]
    · rename_i declared
      rw [errorIf_error]
      simp [declared, and_assoc]

/-- Declaring a field without an error appends it to the current table. -/
private theorem analyzeField_scope {s : Semantics} {table : List IrField} {parents : List (List IrField)}
    (stack : s.fieldsTableStack = table :: parents) (field : IrField)
    (h : (analyzeField s field).error = false) :
    (analyzeField s field).fieldsTableStack = (table ++ [field.analyzed]) :: parents := by
  have declared := (declareField_error s field.analyzed).mp ((analyzeField_error s field).mp h).1
  have added : (s.declareField field.analyzed).fieldsTableStack =
      (table ++ [field.analyzed]) :: parents := by
    unfold declareField
    rw [if_neg (by rw [declared.2.1]; simp), if_neg (fun global => ?_)]
    · simp only [fieldsTableAdd, stack]
    · rw [declared.2.2 global.1] at global
      simp at global
  exact (analyzeField_sameScopes s field).fieldsTableStack.trans added

private theorem fieldsTableGetLocal_eq_none {s : Semantics} {table : List IrField}
    {parents : List (List IrField)} (stack : s.fieldsTableStack = table :: parents) (identifier : String) :
    s.fieldsTableGetLocal identifier = none ↔ identifier ∉ table.map IrField.identifier := by
  simp [fieldsTableGetLocal, stack]

private theorem analyzeFields_error_mono (fields : List IrField) {s : Semantics} (h : s.error = true) :
    (analyzeFields s fields).error = true := by
  induction fields generalizing s with
  | nil => exact h
  | cons field rest ih =>
    refine ih ?_
    by_contra hfield
    have declared := ((analyzeField_error s field).mp (by simpa using hfield)).1
    rw [declareField_error, h] at declared
    simp at declared

def FreshFields (s : Semantics) (table : List IrField) (parents : List (List IrField))
    (fields : List IrField) : Prop :=
  (fields.map IrField.identifier).Nodup ∧ ∀ field ∈ fields,
    field.identifier ∉ table.map IrField.identifier ∧
    (parents = [] → s.methodsTableGet field.identifier = none) ∧ field.Accepted

private theorem freshFields_cons {s s' : Semantics} (same : s'.methodsTable = s.methodsTable)
    {table : List IrField} {parents : List (List IrField)} {field : IrField} {rest : List IrField} :
    FreshFields s table parents (field :: rest) ↔
      (field.identifier ∉ table.map IrField.identifier ∧
        (parents = [] → s.methodsTableGet field.identifier = none) ∧ field.Accepted) ∧
      FreshFields s' (table ++ [field.analyzed]) parents rest := by
  have methods (identifier : String) : s'.methodsTableGet identifier = s.methodsTableGet identifier := by
    simp only [methodsTableGet, same]
  simp only [FreshFields, methods, List.map_cons, List.map_append, List.map_nil, List.nodup_cons,
    List.forall_mem_cons, List.mem_append, List.mem_singleton, IrField.analyzed_identifier, not_or]
  constructor
  · rintro ⟨⟨fresh, distinct⟩, first, others⟩
    refine ⟨first, distinct, fun other hother => ?_⟩
    obtain ⟨hnew, htests⟩ := others other hother
    exact ⟨⟨hnew, fun same => fresh (same ▸ List.mem_map_of_mem hother)⟩, htests⟩
  · rintro ⟨first, distinct, others⟩
    refine ⟨⟨fun hmem => ?_, distinct⟩, first, fun other hother => ?_⟩
    · obtain ⟨other, hother, same⟩ := List.mem_map.mp hmem
      exact (others other hother).1.2 same
    · exact ⟨(others other hother).1.1, (others other hother).2⟩

/-- A whole list of declarations: it is accepted when it is fresh, and then extends the current table. -/
private theorem analyzeFields_error {s : Semantics} {table : List IrField} {parents : List (List IrField)}
    (stack : s.fieldsTableStack = table :: parents) (fields : List IrField) :
    ((analyzeFields s fields).error = false ↔ s.error = false ∧ FreshFields s table parents fields) ∧
    ((analyzeFields s fields).error = false →
      (analyzeFields s fields).fieldsTableStack = (table ++ fields.map IrField.analyzed) :: parents) := by
  induction fields generalizing s table with
  | nil => simp [analyzeFields, stack, FreshFields]
  | cons field rest ih =>
    have unfolded : analyzeFields s (field :: rest) = analyzeFields (analyzeField s field) rest := rfl
    have methods : (analyzeField s field).methodsTable = s.methodsTable :=
      (analyzeField_sameOutside s field).methodsTable
    have first : (analyzeField s field).error = false ↔ s.error = false ∧
        field.identifier ∉ table.map IrField.identifier ∧
        (parents = [] → s.methodsTableGet field.identifier = none) ∧ field.Accepted := by
      rw [analyzeField_error, declareField_error, fieldsTableGetLocal_eq_none stack]
      simp [stack, and_assoc]
    rw [unfolded, freshFields_cons methods, ← and_assoc, ← first]
    cases hfield : (analyzeField s field).error with
    | false =>
      obtain ⟨hiff, hstack⟩ := ih (analyzeField_scope stack field hfield)
      exact ⟨by rw [hiff, hfield], fun h => by simpa using hstack h⟩
    | true =>
      have failed := analyzeFields_error_mono rest hfield
      exact ⟨by simp [failed], fun h => by simp [failed] at h⟩

section
variable {s : Semantics}

/-- An assignment that is accepted is typed. -/
private theorem analyzeAssignment_sound {assignment : IrAssignment}
    (h : (analyzeAssignment s assignment).2.error = false) :
    s.error = false ∧ AssignmentTyped checkerRules s.context assignment := by
  unfold analyzeAssignment at h
  dsimp only at h
  cases he : assignment.expression with
  | none =>
    simp only [he, errorIf_error] at h
    obtain ⟨hs, field, ht, hconstant⟩ := analyzeLocation_sound s assignment.location h.1.1.1
    refine ⟨hs, ⟨field, _, ht, ?_, by simpa using h.1.2, by simpa using h.2, by simp [he]⟩⟩
    rw [← hconstant]
    simpa using h.1.1.2
  | some expression =>
    simp only [he, errorIf_error, ne_eq, not_not] at h
    obtain ⟨h, htype⟩ := h
    obtain ⟨h, hx⟩ := analyzeExpression_sound _ expression h
    simp only [errorIf_error] at h
    obtain ⟨hs, field, ht, hconstant⟩ := analyzeLocation_sound s assignment.location h.1.1.1
    rw [((((analyzeLocation_sameScopes s assignment.location).errorIf _ _).errorIf _ _).errorIf _ _).context,
      htype] at hx
    refine ⟨hs, ⟨field, _, ht, ?_, by simpa using h.1.2, by simpa using h.2, by simpa [he] using hx⟩⟩
    rw [← hconstant]
    simpa using h.1.1.2

/-- A typed assignment is accepted. -/
theorem analyzeAssignment_complete {assignment : IrAssignment} (hs : s.error = false)
    (h : AssignmentTyped checkerRules s.context assignment) :
    (analyzeAssignment s assignment).2.error = false := by
  obtain ⟨field, type, ht, hconstant, hscalar, hint, hx⟩ := h.location
  obtain ⟨hl, htype, hflag⟩ := analyzeLocation_complete s assignment.location hs ht
  unfold analyzeAssignment
  dsimp only
  cases he : assignment.expression with
  | none =>
    simp only [errorIf_error, hl, htype, hflag, hconstant, hscalar]
    simpa using hint
  | some expression =>
    have scopes := (((analyzeLocation_sameScopes s assignment.location).errorIf
      ((analyzeLocation s assignment.location).2 = true)
      ("Cannot assign to constant field '" ++ assignment.location.identifier ++ "'")).errorIf
      ((analyzeLocation s assignment.location).1.type.isArray = true)
      ("Cannot assign to array typed field '" ++ assignment.location.identifier ++ "'")).errorIf
      (assignment.assignOperator ≠ .set ∧ (analyzeLocation s assignment.location).1.type ≠ .int)
      "Arithmetic assignment cannot be applied to field that is not of type int"
    have typed := hx expression he
    rw [← scopes.context] at typed
    obtain ⟨hxe, hxt⟩ := analyzeExpression_complete _ expression (by
      simp only [errorIf_error, hl, htype, hflag, hconstant, hscalar]
      simpa using hint) typed
    rw [errorIf_error]
    exact ⟨hxe, by simpa [htype] using hxt⟩

private theorem analyzeForUpdate_sound {update : IrForUpdate}
    (h : (analyzeForUpdate s update).2.error = false) :
    s.error = false ∧ ForUpdateTyped checkerRules s.context update := by
  cases update with
  | methodCall identifier arguments =>
    obtain ⟨hs, h⟩ := analyzeMethodCall_sound h
    exact ⟨hs, .methodCall h⟩
  | assignment assignment =>
    obtain ⟨hs, h⟩ := analyzeAssignment_sound h
    exact ⟨hs, .assignment h⟩

theorem analyzeForUpdate_complete {update : IrForUpdate} (hs : s.error = false)
    (h : ForUpdateTyped checkerRules s.context update) :
    (analyzeForUpdate s update).2.error = false := by
  cases h with
  | methodCall h => exact analyzeMethodCall_complete hs h
  | assignment h => exact analyzeAssignment_complete hs h

/-- A return that is accepted is typed. -/
private theorem analyzeReturnStatement_sound {returnType : IrDataType}
    (current : s.currentMethod.map IrMethod.returnType = some returnType)
    {expression : Option IrExpression} (h : (analyzeReturnStatement s expression).2.error = false) :
    s.error = false ∧ ReturnTyped checkerRules s.context returnType expression := by
  cases expression with
  | none =>
    simp only [analyzeReturnStatement, errorIf_error, current, ne_eq, not_not, Option.some.injEq] at h
    exact ⟨h.1, .none h.2⟩
  | some expression =>
    simp only [analyzeReturnStatement, errorIf_error, ne_eq, not_not,
      (analyzeExpression_sameScopes s expression).currentMethod, current, Option.some.injEq] at h
    obtain ⟨hs, ht⟩ := analyzeExpression_sound s expression h.1
    exact ⟨hs, .some (h.2 ▸ ht)⟩

private theorem analyzeReturnStatement_complete {returnType : IrDataType}
    (current : s.currentMethod.map IrMethod.returnType = some returnType)
    {expression : Option IrExpression} (hs : s.error = false)
    (h : ReturnTyped checkerRules s.context returnType expression) :
    (analyzeReturnStatement s expression).2.error = false := by
  cases h with
  | none h => simp [analyzeReturnStatement, current, h, hs]
  | @some expression h =>
    obtain ⟨he, ht⟩ := analyzeExpression_complete s expression hs h
    simp [analyzeReturnStatement, (analyzeExpression_sameScopes s expression).currentMethod, current, he, ht]

/-- The declarations of a nested block. -/
theorem blockFields_error (initial fields : List IrField) (nested : s.fieldsTableStack ≠ []) :
    ((analyzeFields (analyzeFields (s.pushScope []) initial) fields).error = false ↔
      s.error = false ∧ ScopeTyped checkerRules (initial ++ fields)) ∧
    ((analyzeFields (analyzeFields (s.pushScope []) initial) fields).error = false →
      (analyzeFields (analyzeFields (s.pushScope []) initial) fields).context =
        s.context.enter ((initial ++ fields).map IrField.analyzed)) := by
  have append : analyzeFields (analyzeFields (s.pushScope []) initial) fields =
      analyzeFields (s.pushScope []) (initial ++ fields) := (List.foldl_append ..).symm
  have pushed : (s.pushScope []).fieldsTableStack = [] :: s.fieldsTableStack := rfl
  obtain ⟨hiff, hstack⟩ := analyzeFields_error pushed (initial ++ fields)
  have methods := (analyzeFields_sameOutside (s.pushScope []) (initial ++ fields)).methodsTable
  rw [append]
  refine ⟨?_, fun h => ?_⟩
  · rw [hiff]
    refine and_congr_right fun _ => ⟨fun h => ⟨h.1, fun field hf => (h.2 field hf).2.2⟩, fun h => ?_⟩
    exact ⟨h.1, fun field hf => ⟨by simp, fun hn => absurd hn nested, h.2 field hf⟩⟩
  · simp only [Semantics.context, hstack h, methods, Context.enter, List.nil_append]
    rfl

theorem blockFields_nested (initial fields : List IrField) (nested : s.fieldsTableStack ≠ []) :
    (analyzeFields (analyzeFields (s.pushScope []) initial) fields).fieldsTableStack ≠ [] := by
  have declared := (analyzeFields_sameOutside (s.pushScope []) initial).trans
    (analyzeFields_sameOutside _ fields)
  intro empty
  have tail := declared.1
  rw [empty] at tail
  exact nested tail.symm

end

def Semantics.InLoop (s : Semantics) : Prop := 0 < s.loopDepth

theorem Semantics.SameScopes.inLoop {s s' : Semantics} (h : s.SameScopes s') : s'.InLoop = s.InLoop := by
  unfold InLoop
  rw [h.loopDepth]

private theorem enterLoop_inLoop (s : Semantics) : (enterLoop s).InLoop = True := by
  simp [InLoop, enterLoop]

theorem Semantics.SameScopes.loop {s s' : Semantics} (h : (enterLoop s).SameScopes s') :
    s'.context = s.context ∧ s'.InLoop = True ∧ s'.fieldsTableStack = s.fieldsTableStack ∧
      s'.currentMethod = s.currentMethod :=
  ⟨h.context, h.inLoop.trans (enterLoop_inLoop s), h.fieldsTableStack, h.currentMethod⟩

mutual

/-- A statement that is accepted is typed. -/
private theorem analyzeStatement_sound (s : Semantics) (statement : IrStatement) {returnType : IrDataType}
    (nested : s.fieldsTableStack ≠ [])
    (current : s.currentMethod.map IrMethod.returnType = some returnType)
    (h : (analyzeStatement s statement).2.error = false) :
    s.error = false ∧ StatementTyped checkerRules returnType s.context s.InLoop statement := by
  cases statement with
  | assignment assignment =>
    obtain ⟨hs, h⟩ := analyzeAssignment_sound h
    exact ⟨hs, .assignment h⟩
  | methodCall identifier arguments =>
    obtain ⟨hs, h⟩ := analyzeMethodCall_sound h
    exact ⟨hs, .methodCall h⟩
  | ifStatement condition ifBlock =>
    have scopes := (analyzeExpression_sameScopes s condition).errorIf
      ((analyzeExpression s condition).type ≠ .bool)
      "Condition expression in if statement must be of type bool"
    obtain ⟨h, hb⟩ := analyzeBlock_sound _ [] ifBlock (scopes.fieldsTableStack ▸ nested)
      (scopes.currentMethod ▸ current) h
    rw [errorIf_error, ne_eq, not_not] at h
    obtain ⟨hs, hc⟩ := analyzeExpression_sound s condition h.1
    rw [scopes.context, scopes.inLoop] at hb
    exact ⟨hs, .ifStatement (h.2 ▸ hc) hb⟩
  | ifElseStatement condition ifBlock elseBlock =>
    have scopes := (analyzeExpression_sameScopes s condition).errorIf
      ((analyzeExpression s condition).type ≠ .bool)
      "Condition expression in if statement must be of type bool"
    have scopes' := scopes.trans (analyzeBlock_sameScopes _ [] ifBlock)
    obtain ⟨h, he⟩ := analyzeBlock_sound _ [] elseBlock (scopes'.fieldsTableStack ▸ nested)
      (scopes'.currentMethod ▸ current) h
    obtain ⟨h, hb⟩ := analyzeBlock_sound _ [] ifBlock (scopes.fieldsTableStack ▸ nested)
      (scopes.currentMethod ▸ current) h
    rw [errorIf_error, ne_eq, not_not] at h
    obtain ⟨hs, hc⟩ := analyzeExpression_sound s condition h.1
    rw [scopes.context, scopes.inLoop] at hb
    rw [scopes'.context, scopes'.inLoop] at he
    exact ⟨hs, .ifElseStatement (h.2 ▸ hc) hb he⟩
  | forStatement initial condition update block =>
    have initialScopes := analyzeAssignment_sameScopes (enterLoop s) initial
    have conditionScopes := (initialScopes.trans (analyzeExpression_sameScopes _ condition)).errorIf
      ((analyzeExpression (analyzeAssignment (enterLoop s) initial).2 condition).type ≠ .bool)
      "Condition expression in for statement must be of type bool"
    have updateScopes := conditionScopes.trans (analyzeForUpdate_sameScopes _ update)
    obtain ⟨h, hb⟩ := analyzeBlock_sound _ [] block (updateScopes.loop.2.2.1 ▸ nested)
      (updateScopes.loop.2.2.2 ▸ current) h
    obtain ⟨h, hu⟩ := analyzeForUpdate_sound h
    rw [errorIf_error, ne_eq, not_not] at h
    obtain ⟨he, hc⟩ := analyzeExpression_sound _ condition h.1
    obtain ⟨hs, hi⟩ := analyzeAssignment_sound he
    rw [updateScopes.loop.1, updateScopes.loop.2.1] at hb
    rw [conditionScopes.loop.1] at hu
    rw [initialScopes.loop.1, h.2] at hc
    exact ⟨hs, .forStatement hi hc hu hb⟩
  | whileStatement condition block =>
    have scopes := (analyzeExpression_sameScopes (enterLoop s) condition).errorIf
      ((analyzeExpression (enterLoop s) condition).type ≠ .bool)
      "Condition expression in while statement must be of type bool"
    obtain ⟨h, hb⟩ := analyzeBlock_sound _ [] block (scopes.loop.2.2.1 ▸ nested)
      (scopes.loop.2.2.2 ▸ current) h
    rw [errorIf_error, ne_eq, not_not] at h
    obtain ⟨hs, hc⟩ := analyzeExpression_sound (enterLoop s) condition h.1
    rw [scopes.loop.1, scopes.loop.2.1] at hb
    exact ⟨hs, .whileStatement (h.2 ▸ hc) hb⟩
  | returnStatement expression =>
    obtain ⟨hs, h⟩ := analyzeReturnStatement_sound current h
    exact ⟨hs, .returnStatement h⟩
  | continueStatement =>
    simp only [analyzeStatement, errorIf_error] at h
    exact ⟨h.1, .continueStatement (Nat.pos_of_ne_zero h.2)⟩
  | breakStatement =>
    simp only [analyzeStatement, errorIf_error] at h
    exact ⟨h.1, .breakStatement (Nat.pos_of_ne_zero h.2)⟩

/-- A block that is accepted is typed. -/
private theorem analyzeBlock_sound (s : Semantics) (initial : List IrField) (block : IrBlock)
    {returnType : IrDataType} (nested : s.fieldsTableStack ≠ [])
    (current : s.currentMethod.map IrMethod.returnType = some returnType)
    (h : (analyzeBlock s initial block).2.error = false) :
    s.error = false ∧ BlockTyped checkerRules returnType s.context s.InLoop initial block := by
  cases block with
  | mk fields statements =>
    have declared := (analyzeFields_sameOutside (s.pushScope []) initial).trans
      (analyzeFields_sameOutside _ fields)
    have tail : (analyzeFields (analyzeFields (s.pushScope []) initial) fields).InLoop = s.InLoop := by
      unfold Semantics.InLoop
      rw [declared.loopDepth]
      rfl
    obtain ⟨hiff, hcontext⟩ := blockFields_error initial fields nested
    obtain ⟨hd, ht⟩ := analyzeStatements_sound _ statements
      (blockFields_nested initial fields nested) (declared.currentMethod ▸ current) h
    rw [hcontext hd, tail] at ht
    exact ⟨(hiff.mp hd).1, .mk (hiff.mp hd).2 ht⟩

/-- Statements that are accepted are typed. -/
private theorem analyzeStatements_sound (s : Semantics) (statements : IrStatements) {returnType : IrDataType}
    (nested : s.fieldsTableStack ≠ [])
    (current : s.currentMethod.map IrMethod.returnType = some returnType)
    (h : (analyzeStatements s statements).2.error = false) :
    s.error = false ∧ StatementsTyped checkerRules returnType s.context s.InLoop statements := by
  cases statements with
  | nil => exact ⟨h, .nil⟩
  | cons statement rest =>
    have scopes := analyzeStatement_sameScopes s statement
    obtain ⟨h, hr⟩ := analyzeStatements_sound _ rest (scopes.fieldsTableStack ▸ nested)
      (scopes.currentMethod ▸ current) h
    obtain ⟨hs, ht⟩ := analyzeStatement_sound s statement nested current h
    rw [scopes.context, scopes.inLoop] at hr
    exact ⟨hs, .cons ht hr⟩

end

mutual

/-- A typed statement is accepted. -/
theorem analyzeStatement_complete (s : Semantics) (statement : IrStatement) {returnType : IrDataType}
    (nested : s.fieldsTableStack ≠ [])
    (current : s.currentMethod.map IrMethod.returnType = some returnType) (hs : s.error = false)
    (h : StatementTyped checkerRules returnType s.context s.InLoop statement) :
    (analyzeStatement s statement).2.error = false := by
  cases statement with
  | assignment assignment =>
    cases h with
    | assignment h => exact analyzeAssignment_complete hs h
  | methodCall identifier arguments =>
    cases h with
    | methodCall h => exact analyzeMethodCall_complete hs h
  | ifStatement condition ifBlock =>
    cases h with
    | ifStatement hc hb =>
      have scopes := (analyzeExpression_sameScopes s condition).errorIf
        ((analyzeExpression s condition).type ≠ .bool)
        "Condition expression in if statement must be of type bool"
      obtain ⟨he, ht⟩ := analyzeExpression_complete s condition hs hc
      rw [← scopes.context, ← scopes.inLoop] at hb
      exact analyzeBlock_complete _ [] ifBlock (scopes.fieldsTableStack ▸ nested)
        (scopes.currentMethod ▸ current) ((errorIf_error _ _ _).mpr ⟨he, by simp [ht]⟩) hb
  | ifElseStatement condition ifBlock elseBlock =>
    cases h with
    | ifElseStatement hc hb hb' =>
      have scopes := (analyzeExpression_sameScopes s condition).errorIf
        ((analyzeExpression s condition).type ≠ .bool)
        "Condition expression in if statement must be of type bool"
      have scopes' := scopes.trans (analyzeBlock_sameScopes _ [] ifBlock)
      obtain ⟨he, ht⟩ := analyzeExpression_complete s condition hs hc
      rw [← scopes.context, ← scopes.inLoop] at hb
      rw [← scopes'.context, ← scopes'.inLoop] at hb'
      have hif := analyzeBlock_complete _ [] ifBlock (scopes.fieldsTableStack ▸ nested)
        (scopes.currentMethod ▸ current) ((errorIf_error _ _ _).mpr ⟨he, by simp [ht]⟩) hb
      exact analyzeBlock_complete _ [] elseBlock (scopes'.fieldsTableStack ▸ nested)
        (scopes'.currentMethod ▸ current) hif hb'
  | forStatement initial condition update block =>
    cases h with
    | forStatement hi hc hu hb =>
      have initialScopes := analyzeAssignment_sameScopes (enterLoop s) initial
      have conditionScopes := (initialScopes.trans (analyzeExpression_sameScopes _ condition)).errorIf
        ((analyzeExpression (analyzeAssignment (enterLoop s) initial).2 condition).type ≠ .bool)
        "Condition expression in for statement must be of type bool"
      have updateScopes := conditionScopes.trans (analyzeForUpdate_sameScopes _ update)
      have hInitial := analyzeAssignment_complete (s := enterLoop s) hs hi
      rw [← initialScopes.loop.1] at hc
      rw [← conditionScopes.loop.1] at hu
      rw [← updateScopes.loop.1, ← updateScopes.loop.2.1] at hb
      obtain ⟨he, ht⟩ := analyzeExpression_complete _ condition hInitial hc
      have hUpdate := analyzeForUpdate_complete ((errorIf_error _ _ _).mpr ⟨he, by simp [ht]⟩) hu
      exact analyzeBlock_complete _ [] block (updateScopes.loop.2.2.1 ▸ nested)
        (updateScopes.loop.2.2.2 ▸ current) hUpdate hb
  | whileStatement condition block =>
    cases h with
    | whileStatement hc hb =>
      have scopes := (analyzeExpression_sameScopes (enterLoop s) condition).errorIf
        ((analyzeExpression (enterLoop s) condition).type ≠ .bool)
        "Condition expression in while statement must be of type bool"
      obtain ⟨he, ht⟩ := analyzeExpression_complete (enterLoop s) condition hs hc
      rw [← scopes.loop.1, ← scopes.loop.2.1] at hb
      exact analyzeBlock_complete _ [] block (scopes.loop.2.2.1 ▸ nested)
        (scopes.loop.2.2.2 ▸ current) ((errorIf_error _ _ _).mpr ⟨he, by simp [ht]⟩) hb
  | returnStatement expression =>
    cases h with
    | returnStatement h => exact analyzeReturnStatement_complete current hs h
  | continueStatement =>
    cases h with
    | continueStatement h => exact (errorIf_error _ _ _).mpr ⟨hs, Nat.pos_iff_ne_zero.mp h⟩
  | breakStatement =>
    cases h with
    | breakStatement h => exact (errorIf_error _ _ _).mpr ⟨hs, Nat.pos_iff_ne_zero.mp h⟩

/-- A typed block is accepted. -/
theorem analyzeBlock_complete (s : Semantics) (initial : List IrField) (block : IrBlock)
    {returnType : IrDataType} (nested : s.fieldsTableStack ≠ [])
    (current : s.currentMethod.map IrMethod.returnType = some returnType) (hs : s.error = false)
    (h : BlockTyped checkerRules returnType s.context s.InLoop initial block) :
    (analyzeBlock s initial block).2.error = false := by
  cases block with
  | mk fields statements =>
    cases h with
    | mk scope h =>
      have declared := (analyzeFields_sameOutside (s.pushScope []) initial).trans
        (analyzeFields_sameOutside _ fields)
      have inLoop : (analyzeFields (analyzeFields (s.pushScope []) initial) fields).InLoop = s.InLoop := by
        unfold Semantics.InLoop
        rw [declared.loopDepth]
        rfl
      obtain ⟨hiff, hcontext⟩ := blockFields_error initial fields nested
      have hd := hiff.mpr ⟨hs, scope⟩
      rw [← hcontext hd, ← inLoop] at h
      exact analyzeStatements_complete _ statements (blockFields_nested initial fields nested)
        (declared.currentMethod ▸ current) hd h

/-- Typed statements are accepted. -/
private theorem analyzeStatements_complete (s : Semantics) (statements : IrStatements) {returnType : IrDataType}
    (nested : s.fieldsTableStack ≠ [])
    (current : s.currentMethod.map IrMethod.returnType = some returnType) (hs : s.error = false)
    (h : StatementsTyped checkerRules returnType s.context s.InLoop statements) :
    (analyzeStatements s statements).2.error = false := by
  cases statements with
  | nil => exact hs
  | cons statement rest =>
    cases h with
    | cons ht hr =>
      have scopes := analyzeStatement_sameScopes s statement
      rw [← scopes.context, ← scopes.inLoop] at hr
      exact analyzeStatements_complete _ rest (scopes.fieldsTableStack ▸ nested)
        (scopes.currentMethod ▸ current) (analyzeStatement_complete s statement nested current hs ht) hr

end

private theorem analyzeBlock_error {s : Semantics} {returnType : IrDataType} (nested : s.fieldsTableStack ≠ [])
    (current : s.currentMethod.map IrMethod.returnType = some returnType) (initial : List IrField)
    (block : IrBlock) : (analyzeBlock s initial block).2.error = false ↔
      s.error = false ∧ BlockTyped checkerRules returnType s.context s.InLoop initial block :=
  ⟨analyzeBlock_sound s initial block nested current,
    fun h => analyzeBlock_complete s initial block nested current h.1 h.2⟩

section
variable {s : Semantics} {table : List IrField}

/-- A method's name is new to the methods and to the fields of the global scope. -/
theorem declareMethod_error (stack : s.fieldsTableStack = [table]) (method : IrMethod) :
    ((s.declareMethod method).error = false ↔ s.error = false ∧
      method.identifier ∉ s.methodsTable.map IrMethod.identifier ∧
      method.identifier ∉ table.map IrField.identifier) ∧
    ((s.declareMethod method).error = false →
      s.declareMethod method = { s with methodsTable := s.methodsTable ++ [method] }) := by
  rw [← fieldsTableGetLocal_eq_none stack]
  have undeclared : s.methodsTableGet method.identifier = none ↔
      method.identifier ∉ s.methodsTable.map IrMethod.identifier := by
    simp [methodsTableGet]
  rw [← undeclared]
  unfold declareMethod
  cases s.methodsTableGet method.identifier with
  | some _ => simp
  | none =>
    cases s.fieldsTableGetLocal method.identifier with
    | some _ => simp
    | none => simp

def FreshMethods (s : Semantics) (table : List IrField) (methods : List IrMethod) : Prop :=
  (methods.map IrMethod.identifier).Nodup ∧ ∀ method ∈ methods,
    method.identifier ∉ s.methodsTable.map IrMethod.identifier ∧
    method.identifier ∉ table.map IrField.identifier

private theorem freshMethods_cons (s' : Semantics) {method : IrMethod} {rest : List IrMethod}
    (declared : s'.methodsTable = s.methodsTable ++ [method]) :
    FreshMethods s table (method :: rest) ↔
      (method.identifier ∉ s.methodsTable.map IrMethod.identifier ∧
        method.identifier ∉ table.map IrField.identifier) ∧ FreshMethods s' table rest := by
  simp only [FreshMethods, declared, List.map_cons, List.map_append, List.map_nil, List.nodup_cons,
    List.forall_mem_cons, List.mem_append, List.mem_singleton, not_or]
  constructor
  · rintro ⟨⟨fresh, distinct⟩, first, others⟩
    refine ⟨first, distinct, fun other hother => ?_⟩
    exact ⟨⟨(others other hother).1, fun same => fresh (same ▸ List.mem_map_of_mem hother)⟩,
      (others other hother).2⟩
  · rintro ⟨first, distinct, others⟩
    refine ⟨⟨fun hmem => ?_, distinct⟩, first, fun other hother => ?_⟩
    · obtain ⟨other, hother, same⟩ := List.mem_map.mp hmem
      exact (others other hother).1.2 same
    · exact ⟨(others other hother).1.1, (others other hother).2⟩

private theorem declareMethod_error_mono {method : IrMethod} (h : s.error = true) :
    (s.declareMethod method).error = true := by
  unfold declareMethod
  split
  · rfl
  · split
    · rfl
    · exact h

private theorem declareMethods_error_mono (imports : List IrMethod) (h : s.error = true) :
    (imports.foldl declareMethod s).error = true := by
  induction imports generalizing s with
  | nil => exact h
  | cons method rest ih => exact ih (declareMethod_error_mono h)

/-- The imports are accepted exactly if their names are new. -/
private theorem declareMethods_error (stack : s.fieldsTableStack = [table]) (imports : List IrMethod) :
    ((imports.foldl declareMethod s).error = false ↔ s.error = false ∧ FreshMethods s table imports) ∧
    ((imports.foldl declareMethod s).error = false →
      imports.foldl declareMethod s = { s with methodsTable := s.methodsTable ++ imports }) := by
  induction imports generalizing s with
  | nil => simp [FreshMethods]
  | cons method rest ih =>
    obtain ⟨hiff, hstate⟩ := declareMethod_error stack method
    cases h : (s.declareMethod method).error with
    | false =>
      have declared := hstate h
      obtain ⟨ihiff, ihstate⟩ := ih (s := s.declareMethod method) (by rw [declared]; exact stack)
      rw [List.foldl_cons, freshMethods_cons (s.declareMethod method) (by rw [declared]),
        ← and_assoc, ← hiff]
      refine ⟨by rw [ihiff], fun hrest => ?_⟩
      rw [ihstate hrest, declared, List.append_assoc]
      rfl
    | true =>
      have failed := declareMethods_error_mono rest h
      rw [List.foldl_cons]
      refine ⟨⟨fun hrest => by simp [failed] at hrest, fun fresh => ?_⟩, fun hrest => by simp [failed] at hrest⟩
      have := (freshMethods_cons { s with methodsTable := s.methodsTable ++ [method] } rfl).mp fresh.2
      simp [hiff.mpr ⟨fresh.1, this.1⟩] at h

theorem declareMethod_fieldsTableStack (method : IrMethod) :
    (s.declareMethod method).fieldsTableStack = s.fieldsTableStack := by
  unfold declareMethod
  split
  · rfl
  · split <;> rfl

private theorem declareMethod_loopDepth (method : IrMethod) : (s.declareMethod method).loopDepth = s.loopDepth := by
  unfold declareMethod
  split
  · rfl
  · split <;> rfl

theorem declareMethods_fieldsTableStack (imports : List IrMethod) :
    (imports.foldl declareMethod s).fieldsTableStack = s.fieldsTableStack := by
  induction imports generalizing s with
  | nil => rfl
  | cons method rest ih => exact ih.trans (declareMethod_fieldsTableStack method)

private theorem declareMethods_loopDepth (imports : List IrMethod) :
    (imports.foldl declareMethod s).loopDepth = s.loopDepth := by
  induction imports generalizing s with
  | nil => rfl
  | cons method rest ih => exact ih.trans (declareMethod_loopDepth method)

/-- A method is declared before its own block is analyzed, so that it may call itself. -/
theorem analyzeMethod_error (stack : s.fieldsTableStack = [table]) (depth : s.loopDepth = 0)
    (method : IrMethod) :
    ((analyzeMethod s method).2.error = false ↔ s.error = false ∧
      (method.identifier ∉ s.methodsTable.map IrMethod.identifier ∧
        method.identifier ∉ table.map IrField.identifier) ∧
      BlockTyped checkerRules method.returnType ⟨[table], s.methodsTable ++ [method]⟩ False
        method.arguments method.block) ∧
    (analyzeMethod s method).2.fieldsTableStack = [table] ∧ (analyzeMethod s method).2.loopDepth = 0 ∧
    ((analyzeMethod s method).2.error = false →
      (analyzeMethod s method).2.methodsTable = s.methodsTable ++ [method]) := by
  obtain ⟨hiff, hstate⟩ := declareMethod_error stack method
  obtain ⟨declared, hdeclared⟩ : ∃ declared : Semantics,
    declared = { s.declareMethod method with currentMethod := some method } := ⟨_, rfl⟩
  have unfolded : (analyzeMethod s method).2 = (analyzeBlock declared method.arguments method.block).2 := by
    rw [hdeclared]
    rfl
  have herror : declared.error = (s.declareMethod method).error := by rw [hdeclared]
  have hstack : declared.fieldsTableStack = [table] := by
    rw [hdeclared]
    exact (declareMethod_fieldsTableStack method).trans stack
  have hdepth : declared.loopDepth = 0 := by
    rw [hdeclared]
    exact (declareMethod_loopDepth method).trans depth
  have hmethods : declared.error = false → declared.methodsTable = s.methodsTable ++ [method] := by
    intro h
    rw [hdeclared, hstate (herror ▸ h)]
  have current : declared.currentMethod.map IrMethod.returnType = some method.returnType := by
    rw [hdeclared]
    rfl
  have block := analyzeBlock_error (by simp [hstack]) current method.arguments method.block
  have scopes := analyzeBlock_sameScopes declared method.arguments method.block
  have inLoop : declared.InLoop = False := by simp [Semantics.InLoop, hdepth]
  rw [inLoop, Semantics.context, hstack] at block
  rw [unfolded, block]
  refine ⟨?_, scopes.1.trans hstack, scopes.4.trans hdepth, fun h => scopes.2.trans (hmethods h.1)⟩
  rw [← and_assoc (a := s.error = false), ← hiff, ← herror]
  exact and_congr_right fun h => by rw [hmethods h]

/-- Methods are accepted exactly if their names are new and they are typed. -/
theorem analyzeMethods_error (stack : s.fieldsTableStack = [table]) (depth : s.loopDepth = 0)
    (methods : List IrMethod) :
    ((analyzeMethods s methods).2.error = false ↔ s.error = false ∧ FreshMethods s table methods ∧
      MethodsTyped checkerRules ⟨[table], s.methodsTable⟩ methods) ∧
    ((analyzeMethods s methods).2.error = false →
      (analyzeMethods s methods).2.methodsTable = s.methodsTable ++ methods) := by
  induction methods generalizing s with
  | nil =>
    simp only [analyzeMethods, FreshMethods]
    exact ⟨⟨fun h => ⟨h, by simp, .nil⟩, fun h => h.1⟩, fun _ => (List.append_nil _).symm⟩
  | cons method rest ih =>
    obtain ⟨hiff, hstack, hdepth, hmethods⟩ := analyzeMethod_error stack depth method
    obtain ⟨ihiff, ihmethods⟩ := ih hstack hdepth
    have unfolded : (analyzeMethods s (method :: rest)).2 =
        (analyzeMethods (analyzeMethod s method).2 rest).2 := rfl
    rw [unfolded, ihiff]
    refine ⟨⟨fun ⟨h, fresh, typed⟩ => ?_, fun ⟨hs, fresh, typed⟩ => ?_⟩, fun h => ?_⟩
    · obtain ⟨hs, name, block⟩ := hiff.mp h
      rw [hmethods h] at typed
      exact ⟨hs, (freshMethods_cons _ (hmethods h)).mpr ⟨name, fresh⟩, .cons block typed⟩
    · cases typed with
      | cons block typed =>
        have name := (freshMethods_cons { s with methodsTable := s.methodsTable ++ [method] } rfl).mp fresh
        have h := hiff.mpr ⟨hs, name.1, block⟩
        refine ⟨h, ((freshMethods_cons _ (hmethods h)).mp fresh).2, ?_⟩
        rw [hmethods h]
        exact typed
    · rw [ihmethods (ihiff.mpr h), hmethods h.1, List.append_assoc]
      rfl

/-- What is accepted is a `main` of the program without parameters and result. -/
theorem checkMain_error : (checkMain s).error = false ↔ s.error = false ∧
    ∃ method, s.methodsTableGet "main" = some method ∧ method.imported = false ∧
      method.returnType = .void ∧ method.arguments = [] := by
  unfold checkMain
  cases s.methodsTableGet "main" with
  | none => simp
  | some method =>
    cases himported : method.imported with
    | true => simp [himported]
    | false =>
      by_cases hvoid : method.returnType = .void
      · simp [himported, hvoid]
      · simp [himported, hvoid]

end

structure IrProgram.Sorted (program : IrProgram) : Prop where
  imports : ∀ method ∈ program.imports, method.imported = true
  methods : ∀ method ∈ program.methods, method.imported = false

/-- The names of the three kinds of global declarations, as the three loops test them. -/
theorem names_nodup (program : IrProgram) : program.names.Nodup ↔
    (program.imports.map IrMethod.identifier).Nodup ∧
    ((program.fields.map IrField.identifier).Nodup ∧
      ∀ field ∈ program.fields, field.identifier ∉ program.imports.map IrMethod.identifier) ∧
    (program.methods.map IrMethod.identifier).Nodup ∧
      ∀ method ∈ program.methods, method.identifier ∉ program.imports.map IrMethod.identifier ∧
        method.identifier ∉ program.fields.map IrField.identifier := by
  have disjoint (names : List String) {α : Type} (items : List α) (name : α → String) :
      names.Disjoint (items.map name) ↔ ∀ item ∈ items, name item ∉ names := by
    simp only [List.Disjoint, List.mem_map]
    exact ⟨fun h item hitem hname => h hname ⟨item, hitem, rfl⟩,
      fun h name hname ⟨item, hitem, same⟩ => h item hitem (same ▸ hname)⟩
  simp only [IrProgram.names, List.nodup_append', disjoint, List.mem_append, not_or]
  constructor
  · rintro ⟨⟨imports, fields, hfields⟩, methods, hmethods⟩
    exact ⟨imports, ⟨fields, hfields⟩, methods, hmethods⟩
  · rintro ⟨imports, ⟨fields, hfields⟩, methods, hmethods⟩
    exact ⟨⟨imports, fields, hfields⟩, methods, hmethods⟩

/-- With distinct names and methods that are not imported, the lookup of `main` is membership. -/
private theorem main_found {program : IrProgram} (sorted : program.Sorted) (distinct : program.names.Nodup)
    (method : IrMethod) :
    (program.imports ++ program.methods).find? (fun method => method.identifier == "main") = some method ∧
      method.imported = false ↔ method ∈ program.methods ∧ method.identifier = "main" := by
  obtain ⟨_, _, hmethods, hfresh⟩ := (names_nodup program).mp distinct
  constructor
  · rintro ⟨found, declared⟩
    have name : method.identifier = "main" := by simpa using List.find?_some found
    cases List.mem_append.mp (List.mem_of_find?_eq_some found) with
    | inl himport => simp [sorted.imports method himport] at declared
    | inr hmethod => exact ⟨hmethod, name⟩
  · rintro ⟨hmethod, name⟩
    refine ⟨?_, sorted.methods method hmethod⟩
    have notImported : program.imports.find? (fun method => method.identifier == "main") = none := by
      rw [List.find?_eq_none]
      intro other hother same
      have same : other.identifier = "main" := by simpa using same
      exact (hfresh method hmethod).1 (name.trans same.symm ▸ List.mem_map_of_mem hother)
    rw [List.find?_append, notImported, Option.none_or]
    rw [← name]
    exact Systems.find?_key hmethods hmethod

def declarations (program : IrProgram) : Semantics :=
  analyzeFields (program.imports.foldl declareMethod (semanticsNew.pushScope [])) program.fields

/-- The imports and the fields are accepted exactly if their names differ and each field is accepted. -/
theorem declarations_spec (program : IrProgram) : ∃ table,
    (declarations program).fieldsTableStack = [table] ∧ (declarations program).loopDepth = 0 ∧
    ((declarations program).error = false ↔
      (program.imports.map IrMethod.identifier).Nodup ∧
      ((program.fields.map IrField.identifier).Nodup ∧
        ∀ field ∈ program.fields, field.identifier ∉ program.imports.map IrMethod.identifier) ∧
      ∀ field ∈ program.fields, field.Accepted) ∧
    ((declarations program).error = false →
      table = program.fields.map IrField.analyzed ∧ (declarations program).methodsTable = program.imports) := by
  obtain ⟨imported, himported⟩ : ∃ imported,
    imported = program.imports.foldl declareMethod (semanticsNew.pushScope []) := ⟨_, rfl⟩
  have hdeclared : declarations program = analyzeFields imported program.fields := by
    rw [himported]
    rfl
  have pushed : (semanticsNew.pushScope []).fieldsTableStack = [[]] := rfl
  obtain ⟨importsError, importsState⟩ := declareMethods_error pushed program.imports
  have importsStack := declareMethods_fieldsTableStack (s := semanticsNew.pushScope []) program.imports
  rw [← himported] at importsError importsState importsStack
  obtain ⟨fieldsError, fieldsStack⟩ := analyzeFields_error (importsStack.trans pushed) program.fields
  have outside := analyzeFields_sameOutside imported program.fields
  rw [← hdeclared] at fieldsError fieldsStack outside
  obtain ⟨table, stack⟩ := List.length_eq_one_iff.mp (outside.length.trans (by rw [importsStack]; rfl))
  have importsTable (h : imported.error = false) : imported.methodsTable = program.imports := by
    rw [importsState h]
    rfl
  have absent (h : imported.error = false) (identifier : String) :
      imported.methodsTableGet identifier = none ↔
        identifier ∉ program.imports.map IrMethod.identifier := by
    simp [methodsTableGet, importsTable h]
  refine ⟨table, stack, ?_, ⟨fun h => ?_, fun ⟨freshImports, ⟨freshFields, otherFields⟩, fields⟩ => ?_⟩, fun h => ?_⟩
  · rw [outside.loopDepth, himported, declareMethods_loopDepth]
    rfl
  · obtain ⟨hi, freshFields, otherFields⟩ := fieldsError.mp h
    exact ⟨(importsError.mp hi).2.1,
      ⟨freshFields, fun field h => (absent hi _).mp ((otherFields field h).2.1 rfl)⟩,
      fun field h => (otherFields field h).2.2⟩
  · have hi := importsError.mpr ⟨rfl, freshImports, fun method _ => by simp [pushScope, semanticsNew]⟩
    exact fieldsError.mpr ⟨hi, freshFields, fun field h =>
      ⟨by simp, fun _ => (absent hi _).mpr (otherFields field h), fields field h⟩⟩
  · have := stack.symm.trans (fieldsStack h)
    exact ⟨by simpa using this, outside.methodsTable.trans (importsTable (fieldsError.mp h).1)⟩

/-- The checker accepts exactly the programs that satisfy the rules as it tests them. -/
theorem analyzeProgram_error {program : IrProgram} (sorted : program.Sorted) :
    (analyzeProgram semanticsNew program).2.error = false ↔ ProgramTyped checkerRules program := by
  obtain ⟨table, stack, depth, declarationsError, globals⟩ := declarations_spec program
  have unfolded : (analyzeProgram semanticsNew program).2.error =
      (checkMain (analyzeMethods (declarations program) program.methods).2).error := rfl
  obtain ⟨methodsError, methodsState⟩ := analyzeMethods_error stack depth program.methods
  have lookup (h : (analyzeMethods (declarations program) program.methods).2.error = false) :
      (analyzeMethods (declarations program) program.methods).2.methodsTableGet "main" =
        (program.imports ++ program.methods).find? (fun method => method.identifier == "main") := by
    rw [methodsTableGet, methodsState h, (globals (methodsError.mp h).1).2]
  have analyzedNames : (program.fields.map IrField.analyzed).map IrField.identifier =
      program.fields.map IrField.identifier := by simp
  rw [unfolded, checkMain_error]
  constructor
  · rintro ⟨herror, method, found, main⟩
    obtain ⟨hd, ⟨freshMethods, otherMethods⟩, typed⟩ := methodsError.mp herror
    obtain ⟨freshImports, freshFields, fields⟩ := declarationsError.mp hd
    rw [(globals hd).1, (globals hd).2] at typed
    rw [(globals hd).1, (globals hd).2, analyzedNames] at otherMethods
    have distinct : program.names.Nodup :=
      (names_nodup program).mpr ⟨freshImports, freshFields, freshMethods, otherMethods⟩
    obtain ⟨hmethod, name⟩ := (main_found sorted distinct method).mp ⟨(lookup herror).symm.trans found, main.1⟩
    exact ⟨distinct, fields, typed, method, hmethod, name, main.2⟩
  · rintro ⟨distinct, fields, typed, method, hmethod, name, main⟩
    obtain ⟨freshImports, freshFields, freshMethods⟩ := (names_nodup program).mp distinct
    have hd := declarationsError.mpr ⟨freshImports, freshFields, fields⟩
    have herror := methodsError.mpr ⟨hd, by
      rw [FreshMethods, (globals hd).1, (globals hd).2, analyzedNames]
      exact freshMethods, by
      rw [(globals hd).1, (globals hd).2]
      exact typed⟩
    obtain ⟨found, notImported⟩ := (main_found sorted distinct method).mpr ⟨hmethod, name⟩
    exact ⟨herror, method, (lookup herror).trans found, notImported, main⟩

end Roast
