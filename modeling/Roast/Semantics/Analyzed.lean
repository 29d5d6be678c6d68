import Roast.Semantics.Source

/-! The program that the checker hands on: the same syntax with the lengths of arrays and of `len` filled
in. It is typed under the rules that the generator relies on. -/
namespace Roast
open Semantics

structure Context.Agree (c c' : Context) : Prop where
  scopes : c'.scopes = c.scopes
  method : ∀ identifier method, c.method identifier = some method → ∃ method',
    c'.method identifier = some method' ∧ method'.imported = method.imported ∧
    method'.returnType = method.returnType ∧ method'.arguments = method.arguments

namespace Context.Agree
variable {c c' : Context}

theorem field (h : c.Agree c') (identifier : String) : c'.field identifier = c.field identifier := by
  simp only [Context.field, h.scopes]

theorem enter (h : c.Agree c') (scope : List IrField) : (c.enter scope).Agree (c'.enter scope) :=
  ⟨by simp only [Context.enter, h.scopes], h.method⟩

end Context.Agree

section
variable {r r' : Rules} {c' : Context}

theorem argumentsTyped_length {c : Context} {fields : List IrField} {arguments : IrArguments}
    (h : ArgumentsTyped r c fields arguments) : fields.length = arguments.length := by
  cases h with
  | nil => rfl
  | expression _ h => simp [IrArguments.length, argumentsTyped_length h]

private theorem analyzeMethodCallWith_typed {s : Semantics} (agree : s.context.Agree c') {identifier : String}
    {arguments : IrArguments} {type : IrDataType} {imported : Semantics → IrArguments × Semantics}
    {regular : List IrField → Semantics → IrArguments × Semantics}
    (hi : ∀ s : Semantics, s.context.Agree c' → ImportedArgumentsTyped r s.context arguments →
      ImportedArgumentsTyped r' c' (imported s).1)
    (hr : ∀ fields (s : Semantics), s.context.Agree c' → ArgumentsTyped r s.context fields arguments →
      ArgumentsTyped r' c' fields (regular fields s).1)
    (h : CallTyped r s.context identifier arguments type) :
    CallTyped r' c' identifier (analyzeMethodCallWith s identifier arguments imported regular).node type := by
  have scopes := ((SameScopes.refl s).getMethodDeclaration identifier).context
  have declared (unshadowed : s.context.field identifier = none) :
      (s.getMethodDeclaration identifier).1 = s.context.method identifier := by
    rw [context_field] at unshadowed
    simp [getMethodDeclaration, unshadowed]
  unfold analyzeMethodCallWith
  cases h with
  | imported unshadowed found himported h =>
    obtain ⟨method', found', same, returnType, _⟩ := agree.method _ _ found
    simp only [declared unshadowed, found, himported, if_true]
    rw [← returnType]
    exact .imported ((agree.field _).trans unshadowed) found' (same.trans himported)
      (hi _ (scopes.symm ▸ agree) (scopes.symm ▸ h))
  | declared unshadowed found hdeclared h =>
    obtain ⟨method', found', same, returnType, arguments⟩ := agree.method _ _ found
    simp only [declared unshadowed, found, hdeclared, argumentsTyped_length h, ne_eq, not_true, if_false,
      Bool.false_eq_true]
    rw [← returnType]
    refine .declared ((agree.field _).trans unshadowed) found' (same.trans hdeclared) ?_
    rw [arguments]
    exact hr _ _ (scopes.symm ▸ agree) (scopes.symm ▸ h)

mutual

/-- An expression stays typed when it is analyzed, by the rules that the analysis fills in. -/
private theorem analyzeExpression_typed (keeps : ∀ literal, r.literal literal → r'.literal literal)
    (s : Semantics) (agree : s.context.Agree c') (expression : IrExpression)
    {type : IrDataType} (h : ExpressionTyped r s.context expression type) :
    ExpressionTyped r' c' (analyzeExpression s expression).node type := by
  cases expression with
  | len identifier length =>
    cases h with
    | len found array =>
      have hf : (s.getFieldDeclaration identifier).1 = _ := found
      simp only [analyzeExpression, hf, array, if_true]
      exact .len ((agree.field identifier).trans found) array
  | negate expression =>
    cases h with
    | negate h => exact .negate (analyzeExpression_typed keeps s agree expression h)
  | not expression =>
    cases h with
    | not h => exact .not (analyzeExpression_typed keeps s agree expression h)
  | literal literal =>
    cases h with
    | literal h => exact .literal (keeps literal h)
  | location location =>
    cases h with
    | location h => exact .location (analyzeLocation_typed keeps s agree location h)
  | methodCall identifier arguments =>
    cases h with
    | methodCall h value =>
      exact .methodCall (analyzeMethodCallWith_typed agree
        (fun s agree h => analyzeImportedMethodCallArguments_typed keeps s agree arguments h)
        (fun fields s agree h => analyzeMethodCallArguments_typed keeps s agree fields fields arguments h) h) value
  | binary operator left right =>
    cases h with
    | binary op hl hr =>
      have scopes := (analyzeExpression_sameScopes s left).context
      exact .binary op (analyzeExpression_typed keeps s agree left hl)
        (analyzeExpression_typed keeps _ (scopes.symm ▸ agree) right (scopes.symm ▸ hr))

/-- A location stays typed when it is analyzed, by the rules that the analysis fills in. -/
private theorem analyzeLocation_typed (keeps : ∀ literal, r.literal literal → r'.literal literal)
    (s : Semantics) (agree : s.context.Agree c') (location : IrLocation)
    {field : IrField} {type : IrDataType} (h : LocationTyped r s.context location field type) :
    LocationTyped r' c' (analyzeLocation s location).1.node field type := by
  cases location with
  | scalar node identifier =>
    cases h with
    | scalar found =>
      have hf : (s.getFieldDeclaration identifier).1 = _ := found
      simp only [analyzeLocation, hf]
      exact .scalar ((agree.field identifier).trans found)
  | element node identifier index =>
    cases h with
    | element found array h =>
      have hf : (s.getFieldDeclaration identifier).1 = _ := found
      have scopes := ((((SameScopes.refl s).getFieldDeclaration identifier).logLookup node field).errorIf
        (field.type.isArray = false) ("Cannot index into a non-array field '" ++ identifier ++ "'")).context
      simp only [analyzeLocation, hf]
      exact .element ((agree.field identifier).trans found) array
        (analyzeExpression_typed keeps _ (scopes.symm ▸ agree) index (scopes.symm ▸ h))

private theorem analyzeImportedMethodCallArguments_typed
    (keeps : ∀ literal, r.literal literal → r'.literal literal) (s : Semantics) (agree : s.context.Agree c')
    (arguments : IrArguments) (h : ImportedArgumentsTyped r s.context arguments) :
    ImportedArgumentsTyped r' c' (analyzeImportedMethodCallArguments s arguments).1 := by
  cases arguments with
  | nil => exact .nil
  | string string rest =>
    cases h with
    | string h => exact .string (analyzeImportedMethodCallArguments_typed keeps s agree rest h)
  | expression expression rest =>
    cases h with
    | expression ht h =>
      have scopes := (analyzeExpression_sameScopes s expression).context
      exact .expression (analyzeExpression_typed keeps s agree expression ht)
        (analyzeImportedMethodCallArguments_typed keeps _ (scopes.symm ▸ agree) rest (scopes.symm ▸ h))

private theorem analyzeMethodCallArguments_typed (keeps : ∀ literal, r.literal literal → r'.literal literal)
    (s : Semantics) (agree : s.context.Agree c')
    (fields checked : List IrField) (arguments : IrArguments)
    (h : ArgumentsTyped r s.context fields arguments) :
    ArgumentsTyped r' c' fields (analyzeMethodCallArguments s checked arguments).1 := by
  cases arguments with
  | nil =>
    cases h with
    | nil => exact .nil
  | string string rest => cases h
  | expression expression rest =>
    cases h with
    | expression ht h =>
      have scopes := ((analyzeExpression_sameScopes s expression).errorIf
        (checked.head?.map IrField.type ≠ some (analyzeExpression s expression).type)
        "Incorrect type passed into method call").context
      exact .expression (analyzeExpression_typed keeps s agree expression ht)
        (analyzeMethodCallArguments_typed keeps _ (scopes.symm ▸ agree) _ _ rest (scopes.symm ▸ h))

end

variable (keeps : ∀ literal, r.literal literal → r'.literal literal)
include keeps

private theorem analyzeMethodCall_typed {s : Semantics} (agree : s.context.Agree c') {identifier : String}
    {arguments : IrArguments} {type : IrDataType} (h : CallTyped r s.context identifier arguments type) :
    CallTyped r' c' identifier (analyzeMethodCall s identifier arguments).node type :=
  analyzeMethodCallWith_typed agree
    (fun s agree h => analyzeImportedMethodCallArguments_typed keeps s agree arguments h)
    (fun fields s agree h => analyzeMethodCallArguments_typed keeps s agree fields fields arguments h) h

/-- An assignment stays typed when it is analyzed, by the rules that the analysis fills in. -/
private theorem analyzeAssignment_typed {s : Semantics} (agree : s.context.Agree c') {assignment : IrAssignment}
    (h : AssignmentTyped r s.context assignment) : AssignmentTyped r' c' (analyzeAssignment s assignment).1 := by
  obtain ⟨field, type, hl, constant, scalar, int, hx⟩ := h.location
  have location := analyzeLocation_typed keeps s agree assignment.location hl
  unfold analyzeAssignment
  dsimp only
  cases he : assignment.expression with
  | none => exact ⟨field, type, location, constant, scalar, int, by simp⟩
  | some expression =>
    refine ⟨field, type, location, constant, scalar, int, ?_⟩
    rintro _ ⟨rfl⟩
    have scopes := (((analyzeLocation_sameScopes s assignment.location).errorIf
      ((analyzeLocation s assignment.location).2 = true)
      ("Cannot assign to constant field '" ++ assignment.location.identifier ++ "'")).errorIf
      ((analyzeLocation s assignment.location).1.type.isArray = true)
      ("Cannot assign to array typed field '" ++ assignment.location.identifier ++ "'")).errorIf
      (assignment.assignOperator ≠ .set ∧ (analyzeLocation s assignment.location).1.type ≠ .int)
      "Arithmetic assignment cannot be applied to field that is not of type int"
    exact analyzeExpression_typed keeps _ (scopes.context.symm ▸ agree) expression
      (scopes.context.symm ▸ hx expression he)

private theorem analyzeForUpdate_typed {s : Semantics} (agree : s.context.Agree c') {update : IrForUpdate}
    (h : ForUpdateTyped r s.context update) : ForUpdateTyped r' c' (analyzeForUpdate s update).1 := by
  cases h with
  | methodCall h => exact .methodCall (analyzeMethodCall_typed keeps agree h)
  | assignment h => exact .assignment (analyzeAssignment_typed keeps agree h)

private theorem analyzeReturnStatement_typed {s : Semantics} (agree : s.context.Agree c') {returnType : IrDataType}
    {expression : Option IrExpression} (h : ReturnTyped r s.context returnType expression) :
    ReturnTyped r' c' returnType (analyzeReturnStatement s expression).1 := by
  cases h with
  | none h => exact .none h
  | some h => exact .some (analyzeExpression_typed keeps s agree _ h)

end

@[simp] theorem IrField.analyzed_analyzed (field : IrField) : field.analyzed.analyzed = field.analyzed := by
  unfold IrField.analyzed
  cases h : field.initializer <;> simp [h]

structure Semantics.Running (s : Semantics) (returnType : IrDataType) (c' : Context) : Prop where
  agree : s.context.Agree c'
  nested : s.fieldsTableStack ≠ []
  current : s.currentMethod.map IrMethod.returnType = some returnType
  error : s.error = false

theorem Semantics.Running.next {s s' : Semantics} {returnType : IrDataType} {c' : Context}
    (h : s.Running returnType c') (scopes : s.SameScopes s') (error : s'.error = false) :
    s'.Running returnType c' :=
  ⟨scopes.context.symm ▸ h.agree, scopes.fieldsTableStack ▸ h.nested, scopes.currentMethod ▸ h.current, error⟩

structure Rules.Fills (r r' : Rules) : Prop where
  literal : ∀ literal, (checkerRules.and r).literal literal → r'.literal literal
  field : ∀ field, (checkerRules.and r).field field → r'.field field.analyzed

private theorem scopeTyped_analyzed {r r' : Rules} (fills : r.Fills r') {fields : List IrField}
    (h : ScopeTyped (checkerRules.and r) fields) : ScopeTyped r' (fields.map IrField.analyzed) := by
  refine ⟨?_, fun field mem => ?_⟩
  · have same : IrField.identifier ∘ IrField.analyzed = IrField.identifier :=
      funext fun field => field.analyzed_identifier
    rw [List.map_map, same]
    exact h.distinct
  · obtain ⟨original, declared, rfl⟩ := List.mem_map.mp mem
    exact fills.field original (h.field original declared)

section
variable {r r' : Rules} {returnType : IrDataType}

mutual

/-- A statement stays typed when it is analyzed, by the rules that the analysis fills in. -/
private theorem analyzeStatement_typed (fills : r.Fills r') (s : Semantics) {c' : Context}
    (running : s.Running returnType c')
    (statement : IrStatement)
    (h : StatementTyped (checkerRules.and r) returnType s.context s.InLoop statement) :
    StatementTyped r' returnType c' s.InLoop (analyzeStatement s statement).1 := by
  cases statement with
  | assignment assignment =>
    cases h with
    | assignment h => exact .assignment (analyzeAssignment_typed fills.literal running.agree h)
  | methodCall identifier arguments =>
    cases h with
    | methodCall h => exact .methodCall (analyzeMethodCall_typed fills.literal running.agree h)
  | ifStatement condition ifBlock =>
    cases h with
    | ifStatement hc hb =>
      have scopes := (analyzeExpression_sameScopes s condition).errorIf
        ((analyzeExpression s condition).type ≠ .bool)
        "Condition expression in if statement must be of type bool"
      obtain ⟨he, ht⟩ := analyzeExpression_complete s condition running.error
        ((expressionTyped_and condition .bool).mp hc).1
      have inner := running.next scopes ((errorIf_error _ _ _).mpr ⟨he, by simp [ht]⟩)
      rw [← scopes.context, ← scopes.inLoop] at hb
      have block := analyzeBlock_typed fills _ inner [] ifBlock hb
      rw [scopes.inLoop] at block
      exact .ifStatement (analyzeExpression_typed fills.literal s running.agree condition hc) block
  | ifElseStatement condition ifBlock elseBlock =>
    cases h with
    | ifElseStatement hc hb hb' =>
      have scopes := (analyzeExpression_sameScopes s condition).errorIf
        ((analyzeExpression s condition).type ≠ .bool)
        "Condition expression in if statement must be of type bool"
      have scopes' := scopes.trans (analyzeBlock_sameScopes _ [] ifBlock)
      obtain ⟨he, ht⟩ := analyzeExpression_complete s condition running.error
        ((expressionTyped_and condition .bool).mp hc).1
      have inner := running.next scopes ((errorIf_error _ _ _).mpr ⟨he, by simp [ht]⟩)
      rw [← scopes.context, ← scopes.inLoop] at hb
      rw [← scopes'.context, ← scopes'.inLoop] at hb'
      have inner' := running.next scopes' (analyzeBlock_complete _ [] ifBlock inner.nested inner.current
        inner.error ((blockTyped_and ifBlock _ _ []).mp hb).1)
      have block := analyzeBlock_typed fills _ inner [] ifBlock hb
      have block' := analyzeBlock_typed fills _ inner' [] elseBlock hb'
      rw [scopes.inLoop] at block
      rw [scopes'.inLoop] at block'
      exact .ifElseStatement (analyzeExpression_typed fills.literal s running.agree condition hc) block block'
  | forStatement initial condition update block =>
    cases h with
    | forStatement hi hc hu hb =>
      have loop : (enterLoop s).Running returnType c' := ⟨running.1, running.2, running.3, running.4⟩
      have initialScopes := analyzeAssignment_sameScopes (enterLoop s) initial
      have conditionScopes := (initialScopes.trans (analyzeExpression_sameScopes _ condition)).errorIf
        ((analyzeExpression (analyzeAssignment (enterLoop s) initial).2 condition).type ≠ .bool)
        "Condition expression in for statement must be of type bool"
      have updateScopes := conditionScopes.trans (analyzeForUpdate_sameScopes _ update)
      have initialRunning := loop.next initialScopes (analyzeAssignment_complete (s := enterLoop s)
        running.error ((assignmentTyped_and initial).mp hi).1)
      have typedInitial := analyzeAssignment_typed fills.literal loop.agree hi
      rw [← initialScopes.loop.1] at hc
      rw [← conditionScopes.loop.1] at hu
      rw [← updateScopes.loop.1, ← updateScopes.loop.2.1] at hb
      obtain ⟨he, ht⟩ := analyzeExpression_complete _ condition initialRunning.error
        ((expressionTyped_and condition .bool).mp hc).1
      have conditionRunning := loop.next conditionScopes ((errorIf_error _ _ _).mpr ⟨he, by simp [ht]⟩)
      have updateRunning := loop.next updateScopes (analyzeForUpdate_complete conditionRunning.error
        ((forUpdateTyped_and update).mp hu).1)
      have typedBlock := analyzeBlock_typed fills _ updateRunning [] block hb
      rw [updateScopes.loop.2.1] at typedBlock
      exact .forStatement typedInitial
        (analyzeExpression_typed fills.literal _ initialRunning.agree condition hc)
        (analyzeForUpdate_typed fills.literal conditionRunning.agree hu) typedBlock
  | whileStatement condition block =>
    cases h with
    | whileStatement hc hb =>
      have loop : (enterLoop s).Running returnType c' := ⟨running.1, running.2, running.3, running.4⟩
      have scopes := (analyzeExpression_sameScopes (enterLoop s) condition).errorIf
        ((analyzeExpression (enterLoop s) condition).type ≠ .bool)
        "Condition expression in while statement must be of type bool"
      obtain ⟨he, ht⟩ := analyzeExpression_complete (enterLoop s) condition running.error
        ((expressionTyped_and condition .bool).mp hc).1
      have inner := loop.next scopes ((errorIf_error _ _ _).mpr ⟨he, by simp [ht]⟩)
      rw [← scopes.loop.1, ← scopes.loop.2.1] at hb
      have typedBlock := analyzeBlock_typed fills _ inner [] block hb
      rw [scopes.loop.2.1] at typedBlock
      exact .whileStatement (analyzeExpression_typed fills.literal _ loop.agree condition hc) typedBlock
  | returnStatement expression =>
    cases h with
    | returnStatement h => exact .returnStatement (analyzeReturnStatement_typed fills.literal running.agree h)
  | continueStatement =>
    cases h with
    | continueStatement h => exact .continueStatement h
  | breakStatement =>
    cases h with
    | breakStatement h => exact .breakStatement h

/-- A block stays typed when it is analyzed, by the rules that the analysis fills in. -/
private theorem analyzeBlock_typed (fills : r.Fills r') (s : Semantics) {c' : Context}
    (running : s.Running returnType c')
    (initial : List IrField) (block : IrBlock)
    (h : BlockTyped (checkerRules.and r) returnType s.context s.InLoop initial block) :
    BlockTyped r' returnType c' s.InLoop (initial.map IrField.analyzed) (analyzeBlock s initial block).1 := by
  cases block with
  | mk fields statements =>
    cases h with
    | mk scope h =>
      have declared := (analyzeFields_sameOutside (s.pushScope []) initial).trans
        (analyzeFields_sameOutside _ fields)
      have inLoop : (analyzeFields (analyzeFields (s.pushScope []) initial) fields).InLoop = s.InLoop := by
        unfold Semantics.InLoop
        rw [declared.loopDepth]
        rfl
      obtain ⟨hiff, hcontext⟩ := blockFields_error (s := s) initial fields running.nested
      have hd := hiff.mpr ⟨running.error, ((scopeTyped_and _).mp scope).1⟩
      have inner : (analyzeFields (analyzeFields (s.pushScope []) initial) fields).Running returnType
          (c'.enter ((initial ++ fields).map IrField.analyzed)) :=
        ⟨hcontext hd ▸ running.agree.enter _, blockFields_nested initial fields running.nested,
          declared.currentMethod ▸ running.current, hd⟩
      rw [← hcontext hd, ← inLoop] at h
      have typed := analyzeStatements_typed fills _ inner statements h
      rw [inLoop] at typed
      refine .mk (List.map_append ▸ scopeTyped_analyzed fills scope) ?_
      rw [← List.map_append, List.map_map, show IrField.analyzed ∘ IrField.analyzed = IrField.analyzed from
        funext IrField.analyzed_analyzed]
      exact typed

/-- Statements stay typed when they are analyzed, by the rules that the analysis fills in. -/
private theorem analyzeStatements_typed (fills : r.Fills r') (s : Semantics) {c' : Context}
    (running : s.Running returnType c')
    (statements : IrStatements)
    (h : StatementsTyped (checkerRules.and r) returnType s.context s.InLoop statements) :
    StatementsTyped r' returnType c' s.InLoop (analyzeStatements s statements).1 := by
  cases statements with
  | nil => exact .nil
  | cons statement rest =>
    cases h with
    | cons ht hr =>
      have scopes := analyzeStatement_sameScopes s statement
      have next := running.next scopes (analyzeStatement_complete s statement running.nested running.current
        running.error ((statementTyped_and statement _ _).mp ht).1)
      rw [← scopes.context, ← scopes.inLoop] at hr
      have typed := analyzeStatements_typed fills _ next rest hr
      rw [scopes.inLoop] at typed
      exact .cons (analyzeStatement_typed fills s running statement ht) typed

end
end

structure IrMethod.SameSignature (method method' : IrMethod) : Prop where
  identifier : method'.identifier = method.identifier
  imported : method'.imported = method.imported
  returnType : method'.returnType = method.returnType
  arguments : method'.arguments = method.arguments

theorem IrMethod.SameSignature.refl (method : IrMethod) : method.SameSignature method := ⟨rfl, rfl, rfl, rfl⟩

/-- Methods with the same signatures give the same context. -/
private theorem agree_of_sameSignature {scopes : List (List IrField)} {methods methods' : List IrMethod}
    (same : List.Forall₂ IrMethod.SameSignature methods methods') :
    Context.Agree ⟨scopes, methods⟩ ⟨scopes, methods'⟩ := by
  refine ⟨rfl, fun identifier method found => ?_⟩
  unfold Context.method at found ⊢
  dsimp only at found ⊢
  induction same with
  | nil => simp at found
  | cons head _ ih =>
    rw [List.find?_cons] at found ⊢
    rw [head.identifier]
    split at found
    · obtain rfl := Option.some.inj found
      exact ⟨_, rfl, head.imported, head.returnType, head.arguments⟩
    · exact ih found

private theorem arguments_analyzed {fields : List IrField} (plain : ∀ field ∈ fields, field.initializer = none) :
    fields.map IrField.analyzed = fields := by
  conv_rhs => rw [← List.map_id fields]
  refine List.map_congr_left fun field mem => ?_
  simp [IrField.analyzed, plain field mem]

private theorem analyzeMethod_sameSignature (s : Semantics) {method : IrMethod}
    (plain : ∀ field ∈ method.arguments, field.initializer = none) :
    method.SameSignature (analyzeMethod s method).1 :=
  ⟨rfl, rfl, rfl, arguments_analyzed plain⟩

private theorem analyzeMethods_sameSignature (s : Semantics) {methods : List IrMethod}
    (plain : ∀ method ∈ methods, ∀ field ∈ method.arguments, field.initializer = none) :
    List.Forall₂ IrMethod.SameSignature methods (analyzeMethods s methods).1 := by
  induction methods generalizing s with
  | nil => exact .nil
  | cons method rest ih =>
    exact .cons (analyzeMethod_sameSignature s (plain method List.mem_cons_self))
      (ih _ fun m mem => plain m (List.mem_cons_of_mem _ mem))

private theorem sameSignature_identifiers {methods methods' : List IrMethod}
    (same : List.Forall₂ IrMethod.SameSignature methods methods') :
    methods.map IrMethod.identifier = methods'.map IrMethod.identifier := by
  induction same with
  | nil => rfl
  | cons head _ ih => rw [List.map_cons, List.map_cons, head.identifier, ih]

private theorem sameSignature_exists {methods methods' : List IrMethod}
    (same : List.Forall₂ IrMethod.SameSignature methods methods') {method : IrMethod} (mem : method ∈ methods) :
    ∃ method' ∈ methods', method.SameSignature method' := by
  induction same with
  | nil => simp at mem
  | cons head _ ih =>
    cases mem with
    | head => exact ⟨_, List.mem_cons_self, head⟩
    | tail _ mem =>
      obtain ⟨method', mem', signature⟩ := ih mem
      exact ⟨method', List.mem_cons_of_mem _ mem', signature⟩

private theorem analyzeMethods_typed {r r' : Rules} (fills : r.Fills r') {s : Semantics} {table : List IrField}
    (stack : s.fieldsTableStack = [table]) (depth : s.loopDepth = 0) {methods : List IrMethod}
    (plain : ∀ method ∈ methods, ∀ field ∈ method.arguments, field.initializer = none)
    (herror : (analyzeMethods s methods).2.error = false) {methods' : List IrMethod}
    (same : List.Forall₂ IrMethod.SameSignature s.methodsTable methods')
    (h : MethodsTyped (checkerRules.and r) ⟨[table], s.methodsTable⟩ methods) :
    MethodsTyped r' ⟨[table], methods'⟩ (analyzeMethods s methods).1 := by
  induction methods generalizing s methods' with
  | nil => exact .nil
  | cons method rest ih =>
    cases h with
    | cons hm hr =>
      obtain ⟨hiff, hstack, hdepth, hmethods⟩ := analyzeMethod_error stack depth method
      have first := ((analyzeMethods_error hstack hdepth rest).1.mp herror).1
      have signature := analyzeMethod_sameSignature s (plain method List.mem_cons_self)
      have extended := List.rel_append same (List.Forall₂.cons signature .nil)
      rw [← hmethods first] at hr
      have others := ih hstack hdepth (fun m mem => plain m (List.mem_cons_of_mem _ mem)) herror
        (by rw [hmethods first]; exact extended) hr
      refine .cons ?_ others
      obtain ⟨hd, hstate⟩ := declareMethod_error stack method
      have declared := hstate (hd.mpr ⟨(hiff.mp first).1, (hiff.mp first).2.1⟩)
      have inLoop : Semantics.InLoop { s with
          methodsTable := s.methodsTable ++ [method], currentMethod := some method } = False := by
        simp [Semantics.InLoop, depth]
      have running : Semantics.Running { s with
          methodsTable := s.methodsTable ++ [method], currentMethod := some method } method.returnType
          ⟨[table], methods' ++ [(analyzeMethod s method).1]⟩ :=
        ⟨by simpa only [Semantics.context, stack] using agree_of_sameSignature extended, by simp [stack], rfl,
          (hiff.mp first).1⟩
      have typed := analyzeBlock_typed fills _ running method.arguments method.block (by
        rw [inLoop]
        simpa only [Semantics.context, stack] using hm)
      rw [inLoop] at typed
      have block : (analyzeMethod s method).1.block = (analyzeBlock { s with
          methodsTable := s.methodsTable ++ [method], currentMethod := some method }
          method.arguments method.block).1 := by
        unfold analyzeMethod
        rw [declared]
      rw [block]
      exact typed

section
variable {program analyzed : IrProgram}

theorem accepts_error (h : Accepts program analyzed) : (analyzeProgram semanticsNew program).2.error = false := by
  obtain ⟨hcode, _⟩ := Prod.ext_iff.mp h
  by_contra failed
  simp [semanticsAnalyze, failed] at hcode

theorem accepts_typed (source : program.FromSource) (h : Accepts program analyzed) :
    ProgramTyped (checkerRules.and sourceRules) program :=
  (programTyped_and program).mpr ⟨(analyzeProgram_error source.toSorted).mp (accepts_error h), source.all⟩

structure SameOutline (program analyzed : IrProgram) : Prop where
  imports : analyzed.imports = program.imports
  fields : analyzed.fields = program.fields.map IrField.analyzed
  methods : List.Forall₂ IrMethod.SameSignature program.methods analyzed.methods

theorem SameOutline.names (h : SameOutline program analyzed) : analyzed.names = program.names := by
  have same : IrField.identifier ∘ IrField.analyzed = IrField.identifier := funext IrField.analyzed_identifier
  rw [IrProgram.names, h.imports, h.fields, List.map_map, same, ← sameSignature_identifiers h.methods]
  rfl

theorem accepts_sameOutline (source : program.FromSource) (h : Accepts program analyzed) :
    SameOutline program analyzed := by
  obtain ⟨_, rfl⟩ := Prod.ext_iff.mp h
  exact ⟨rfl, rfl, analyzeMethods_sameSignature (declarations program) fun method mem field mem' =>
    (source.arguments method mem field mem').2.2⟩

/-- The analyzed program is typed by the rules that the analysis fills in. -/
theorem accepts_fills {r r' : Rules} (fills : r.Fills r') (source : program.FromSource)
    (typed : ProgramTyped (checkerRules.and r) program) (h : Accepts program analyzed) :
    ProgramTyped r' analyzed := by
  have outline := accepts_sameOutline source h
  have herror := accepts_error h
  obtain ⟨_, rfl⟩ := Prod.ext_iff.mp h
  obtain ⟨table, stack, depth, _, globals⟩ := declarations_spec program
  have hmethods := (checkMain_error.mp herror).1
  obtain ⟨rfl, methodsTable⟩ := globals ((analyzeMethods_error stack depth program.methods).1.mp hmethods).1
  have imports : List.Forall₂ IrMethod.SameSignature program.imports program.imports :=
    List.forall₂_same.mpr fun m _ => .refl m
  have methods := analyzeMethods_typed fills stack depth
    (fun method mem field mem' => (source.arguments method mem field mem').2.2) hmethods
    (by rw [methodsTable]; exact imports) (by rw [methodsTable]; exact typed.methods)
  have globalFields : (program.fields.map IrField.analyzed).map IrField.analyzed =
      program.fields.map IrField.analyzed := by
    rw [List.map_map, show IrField.analyzed ∘ IrField.analyzed = IrField.analyzed from
      funext IrField.analyzed_analyzed]
  refine ⟨outline.names ▸ typed.distinct, fun field mem => ?_, globalFields.symm ▸ methods, ?_⟩
  · obtain ⟨original, declared, rfl⟩ := List.mem_map.mp mem
    exact fills.field original (typed.fields original declared)
  · obtain ⟨method, mem, name, void, arguments⟩ := typed.main
    obtain ⟨method', mem', signature⟩ := sameSignature_exists outline.methods mem
    exact ⟨method', mem', signature.identifier.trans name, signature.returnType.trans void,
      signature.arguments.trans arguments⟩

end

structure IrLiteral.Ready (literal : IrLiteral) : Prop where
  value : literal.value.toNat ≤ 2 ^ 63
  bool : literal.type = .bool → literal.value = 0 ∨ literal.value = 1

/-- A field has a length, and its initializer fills it. -/
structure IrField.Ready (field : IrField) : Prop where
  identifier : IsIdentifier field.identifier
  type : field.type.element = .int ∨ field.type.element = .bool
  scalar : field.type.isArray = false → field.arrayLength = 1
  positive : 0 < field.arrayLength
  length : field.arrayLength < 2 ^ 63
  literals : ∀ initializer ∈ field.initializer, ∀ literal ∈ initializer.literals,
    literal.Ready ∧ literal.type.dataType = field.type.element
  count : ∀ initializer ∈ field.initializer, (initializer.literals.length : Int) = field.arrayLength

def readyRules : Rules where
  literal literal := literal.Ready ∧ (literal.negate = true → literal.type = .int)
  field := IrField.Ready

def smallArrays : Rules where
  literal _ := True
  field field := field.arrayLength < 2 ^ 32

instance : DecidablePred smallArrays.literal := fun _ => .isTrue trivial

instance : DecidablePred smallArrays.field := fun field =>
  inferInstanceAs (Decidable (field.arrayLength < 2 ^ 32))

/-- A converted literal is in range or the overflow marker. -/
private theorem stringToIntLoop_le {maximum base : Word} (characters : List Char) (value place : Word)
    (h : value ≤ maximum) : stringToIntLoop maximum base characters value place = overflowMarker ∨
      stringToIntLoop maximum base characters value place ≤ maximum := by
  induction characters generalizing value place with
  | nil => exact .inr h
  | cons character rest ih =>
    unfold stringToIntLoop
    dsimp only
    split_ifs with overflow wraps large carry
    · exact .inl rfl
    · exact .inl rfl
    · exact .inl rfl
    · exact .inl rfl
    · exact ih _ _ (BitVec.not_lt.mp large)

private theorem irIntLiteralFromAst_le (token : IntLiteralToken) (negate : Bool) :
    irIntLiteralFromAst token negate = overflowMarker ∨
      (irIntLiteralFromAst token negate).toNat ≤ INT64_MAX + (if negate then 1 else 0) := by
  have maximum : (BitVec.ofNat 64 INT64_MAX + (if negate then 1 else 0)).toNat =
      INT64_MAX + (if negate then 1 else 0) := by cases negate <;> rfl
  refine (stringToIntLoop_le token.digits.reverse 0 1
    (Nat.zero_le _ : (0 : Word).toNat ≤ _)).imp id fun h => ?_
  rw [← maximum]
  exact h

/-- An accepted literal from a source is ready. -/
theorem IrLiteral.ready {literal : IrLiteral} (accepted : literal.Accepted) (source : literal.FromSource) :
    literal.Ready := by
  unfold IrLiteral.FromSource at source
  unfold IrLiteral.Accepted at accepted
  cases htype : literal.type with
  | int =>
    rw [htype] at source
    obtain ⟨token, _, _, hvalue⟩ := source
    refine ⟨?_, by simp [htype]⟩
    obtain marker | small := irIntLiteralFromAst_le token literal.negate
    · exact absurd ⟨htype, hvalue.trans marker⟩ accepted
    · rw [hvalue]
      unfold INT64_MAX at small
      split at small <;> omega
  | bool =>
    rw [htype] at source
    refine ⟨?_, fun _ => source.2⟩
    obtain h | h := source.2 <;> simp [h]
  | char =>
    rw [htype] at source
    exact ⟨by have := source.2; omega, by simp [htype]⟩

/-- An accepted field from a source is ready. -/
theorem IrField.ready {field : IrField} (accepted : field.Accepted) (source : field.FromSource) :
    field.analyzed.Ready := by
  cases hinitializer : field.initializer with
  | none =>
    have same : field.analyzed = field := by simp [IrField.analyzed, hinitializer]
    rw [same]
    suffices 0 < field.arrayLength ∧ field.arrayLength < 2 ^ 63 from
      ⟨source.identifier, source.type, fun scalar => (source.scalar scalar).1, this.1, this.2,
        by simp [hinitializer], by simp [hinitializer]⟩
    cases harray : field.type.isArray with
    | false => simp [(source.scalar harray).1]
    | true =>
      simp only [IrField.Accepted, hinitializer, harray, true_and] at accepted
      have length := source.array harray
      cases htoken : field.lengthToken with
      | none =>
        rw [htoken] at length
        exact absurd length accepted.1
      | some token =>
        rw [htoken] at length
        have length : field.arrayLength = (irIntLiteralFromAst token false).toInt := length
        obtain marker | small := irIntLiteralFromAst_le token false
        · rw [marker] at length
          exact absurd length accepted.1
        · have small : (irIntLiteralFromAst token false).toNat ≤ 2 ^ 63 - 1 := small
          rw [BitVec.toInt_eq_toNat_of_lt (by omega)] at length
          have := accepted.2.1
          omega
  | some initializer =>
    simp only [IrField.Accepted, hinitializer] at accepted
    obtain ⟨literals, type, _⟩ := accepted
    obtain ⟨array, types⟩ := (IrField.initializer_type_iff source hinitializer).mp
      ⟨fun literal mem => (literals literal mem).2, type⟩
    obtain ⟨nonempty, counted, unbraced⟩ := source.count initializer hinitializer
    have filled : field.analyzed = { field with arrayLength := initializer.literals.length } := by
      simp [IrField.analyzed, hinitializer]
    rw [filled]
    refine ⟨source.identifier, source.type, fun scalar => ?_, ?_, ?_, fun i given literal mem => ?_,
      fun i given => ?_⟩
    · dsimp only
      exact_mod_cast unbraced (array.trans scalar)
    · dsimp only
      exact_mod_cast List.length_pos_iff.mpr nonempty
    · dsimp only
      omega
    · obtain rfl := Option.some.inj (hinitializer.symm.trans given)
      exact ⟨IrLiteral.ready (literals literal mem).1 (source.literals _ hinitializer literal mem), types literal mem⟩
    · obtain rfl := Option.some.inj (hinitializer.symm.trans given)
      rfl

theorem sourceRules_fills : sourceRules.Fills readyRules where
  literal _ h := ⟨IrLiteral.ready h.1 h.2.1, h.2.2⟩
  field _ h := IrField.ready h.1 h.2

/-- What the checker hands to the generator. -/
structure IrProgram.Ready (program : IrProgram) : Prop extends program.Sorted where
  typed : ProgramTyped readyRules program
  names : ∀ name ∈ program.names, IsIdentifier name
  importTypes : ∀ method ∈ program.imports, method.returnType = .int
  returnTypes : ∀ method ∈ program.methods, method.returnType.isArray = false
  arguments : ∀ method ∈ program.methods, ∀ field ∈ method.arguments,
    field.type.isArray = false ∧ field.constant = false ∧ field.initializer = none

private theorem sameSignature_forall {methods methods' : List IrMethod} {p : IrMethod → Prop}
    (same : List.Forall₂ IrMethod.SameSignature methods methods') (all : ∀ method ∈ methods, p method)
    (keeps : ∀ method method', method.SameSignature method' → p method → p method') :
    ∀ method ∈ methods', p method := by
  induction same with
  | nil => simp
  | cons head _ ih =>
    rw [List.forall_mem_cons] at all ⊢
    exact ⟨keeps _ _ head all.1, ih all.2⟩

/-- An accepted program from a source is ready to be lowered. -/
theorem accepts_ready {program analyzed : IrProgram} (source : program.FromSource)
    (h : Accepts program analyzed) : analyzed.Ready where
  typed := accepts_fills sourceRules_fills source (accepts_typed source h) h
  imports := (accepts_sameOutline source h).imports ▸ source.imports
  methods := sameSignature_forall (accepts_sameOutline source h).methods source.methods
    fun _ _ same himported => same.imported.trans himported
  names := (accepts_sameOutline source h).names ▸ source.names
  importTypes := (accepts_sameOutline source h).imports ▸ fun method mem => (source.importTypes method mem).1
  returnTypes := sameSignature_forall (accepts_sameOutline source h).methods source.returnTypes
    fun _ _ same scalar => same.returnType ▸ scalar
  arguments := sameSignature_forall (accepts_sameOutline source h).methods source.arguments
    fun _ _ same plain => same.arguments ▸ plain

private theorem smallArrays_fills : (sourceRules.and smallArrays).Fills (readyRules.and smallArrays) where
  literal _ h := ⟨⟨IrLiteral.ready h.1 h.2.1.1, h.2.1.2⟩, trivial⟩
  field field h := by
    refine ⟨IrField.ready h.1 h.2.1, ?_⟩
    unfold IrField.analyzed smallArrays
    cases hinitializer : field.initializer with
    | none => exact h.2.2
    | some initializer =>
      dsimp only
      exact_mod_cast (h.2.1.count initializer hinitializer).2.1

/-- Lengths below `2 ^ 32` stay below it. -/
theorem accepts_small {program analyzed : IrProgram} (source : program.FromSource)
    (h : Accepts program analyzed) (small : program.All smallArrays) :
    ProgramTyped (readyRules.and smallArrays) analyzed := by
  refine accepts_fills smallArrays_fills source ?_ h
  have typed := (programTyped_and program).mpr ⟨accepts_typed source h, small⟩
  have assoc : (checkerRules.and sourceRules).and smallArrays =
      checkerRules.and (sourceRules.and smallArrays) := by
    simp only [Rules.and, and_assoc]
  exact assoc ▸ typed

end Roast
