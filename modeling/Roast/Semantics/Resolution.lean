import Roast.Semantics.Analyzed

/-! Name resolution: the declaration of every location of a program, in the order of the source. The
checker's lookups are exactly these. -/
namespace Roast
open Semantics

/-- The location at `node` denotes the innermost visible field of the given name. -/
def Context.resolveName (c : Context) (node : Nat) (identifier : String) : List (Nat × Nat) :=
  ((c.field identifier).map fun field => (node, field.node)).toList

mutual

def IrExpression.resolve (c : Context) : IrExpression → List (Nat × Nat)
  | .binary _ left right => left.resolve c ++ right.resolve c
  | .not expression | .negate expression => expression.resolve c
  | .len _ _ | .literal _ => []
  | .methodCall _ arguments => arguments.resolve c
  | .location location => location.resolve c

def IrLocation.resolve (c : Context) : IrLocation → List (Nat × Nat)
  | .scalar node identifier => c.resolveName node identifier
  | .element node identifier index => c.resolveName node identifier ++ index.resolve c

def IrArguments.resolve (c : Context) : IrArguments → List (Nat × Nat)
  | .nil => []
  | .string _ rest => rest.resolve c
  | .expression expression rest => expression.resolve c ++ rest.resolve c

end

def IrAssignment.resolve (c : Context) (assignment : IrAssignment) : List (Nat × Nat) :=
  assignment.location.resolve c ++ (assignment.expression.map fun expression => expression.resolve c).getD []

def IrForUpdate.resolve (c : Context) : IrForUpdate → List (Nat × Nat)
  | .methodCall _ arguments => arguments.resolve c
  | .assignment update => update.resolve c

mutual

def IrStatement.resolve (c : Context) : IrStatement → List (Nat × Nat)
  | .assignment statement => statement.resolve c
  | .methodCall _ arguments => arguments.resolve c
  | .ifStatement condition ifBlock => condition.resolve c ++ ifBlock.resolve c []
  | .ifElseStatement condition ifBlock elseBlock =>
    condition.resolve c ++ ifBlock.resolve c [] ++ elseBlock.resolve c []
  | .forStatement initial condition update block =>
    initial.resolve c ++ condition.resolve c ++ update.resolve c ++ block.resolve c []
  | .whileStatement condition block => condition.resolve c ++ block.resolve c []
  | .returnStatement expression => (expression.map fun expression => expression.resolve c).getD []
  | .breakStatement | .continueStatement => []

def IrBlock.resolve (c : Context) (initial : List IrField) : IrBlock → List (Nat × Nat)
  | .mk fields statements => statements.resolve (c.enter (initial ++ fields))

def IrStatements.resolve (c : Context) : IrStatements → List (Nat × Nat)
  | .nil => []
  | .cons statement rest => statement.resolve c ++ rest.resolve c

end

def IrProgram.resolve (program : IrProgram) : List (Nat × Nat) :=
  program.methods.flatMap fun method => method.block.resolve ⟨[program.fields], []⟩ method.arguments

@[simp] theorem Semantics.errorIf_lookups (s : Semantics) (condition : Prop) [Decidable condition]
    (message : String) : (s.errorIf condition message).lookups = s.lookups := by
  unfold errorIf
  split <;> rfl

private theorem Semantics.getFieldDeclaration_lookups (s : Semantics) (identifier : String) :
    (s.getFieldDeclaration identifier).2.lookups = s.lookups := s.errorIf_lookups _ _

private theorem Semantics.getMethodDeclaration_lookups (s : Semantics) (identifier : String) :
    (s.getMethodDeclaration identifier).2.lookups = s.lookups := by
  unfold getMethodDeclaration
  split
  · rfl
  · exact s.errorIf_lookups _ _

private theorem checkBinaryOperands_lookups (s : Semantics) (operator : IrBinaryOperator) (left right : IrDataType) :
    (checkBinaryOperands s operator left right).lookups = s.lookups := by
  unfold checkBinaryOperands
  split_ifs <;> simp

section
variable {r : Rules} {c : Context}

private theorem analyzeMethodCallWith_lookups {s : Semantics} (hc : s.context = c) {identifier : String}
    {arguments : IrArguments} {type : IrDataType} {imported : Semantics → IrArguments × Semantics}
    {regular : List IrField → Semantics → IrArguments × Semantics}
    (hi : ∀ s : Semantics, s.context = c → ImportedArgumentsTyped r c arguments →
      (imported s).2.lookups = s.lookups ++ (imported s).1.resolve c)
    (hr : ∀ fields (s : Semantics), s.context = c → ArgumentsTyped r c fields arguments →
      (regular fields s).2.lookups = s.lookups ++ (regular fields s).1.resolve c)
    (h : CallTyped r c identifier arguments type) :
    (analyzeMethodCallWith s identifier arguments imported regular).state.lookups =
      s.lookups ++ (analyzeMethodCallWith s identifier arguments imported regular).node.resolve c := by
  have scopes := ((SameScopes.refl s).getMethodDeclaration identifier).context
  have declared (unshadowed : c.field identifier = none) :
      (s.getMethodDeclaration identifier).1 = c.method identifier := by
    rw [← hc, context_field] at unshadowed
    simp [getMethodDeclaration, unshadowed, ← hc]
  rw [← s.getMethodDeclaration_lookups identifier]
  unfold analyzeMethodCallWith
  cases h with
  | imported unshadowed found himported h =>
    simp only [declared unshadowed, found, himported, if_true]
    exact hi _ (scopes.trans hc) h
  | declared unshadowed found hdeclared h =>
    simp only [declared unshadowed, found, hdeclared, argumentsTyped_length h, ne_eq, not_true, if_false,
      Bool.false_eq_true]
    exact hr _ _ (scopes.trans hc) h

mutual

/-- A typed expression looks its names up where they resolve. -/
private theorem analyzeExpression_lookups (s : Semantics) (hc : s.context = c) (expression : IrExpression)
    {type : IrDataType} (h : ExpressionTyped r c expression type) :
    (analyzeExpression s expression).state.lookups =
      s.lookups ++ (analyzeExpression s expression).node.resolve c := by
  cases expression with
  | len identifier length =>
    cases h with
    | len found array =>
      have hf : (s.getFieldDeclaration identifier).1 = _ := (congrArg (Context.field · identifier) hc).trans found
      simp [analyzeExpression, hf, array, IrExpression.resolve, s.getFieldDeclaration_lookups]
  | negate expression =>
    cases h with
    | negate h => exact (errorIf_lookups _ _ _).trans (analyzeExpression_lookups s hc expression h)
  | not expression =>
    cases h with
    | not h => exact (errorIf_lookups _ _ _).trans (analyzeExpression_lookups s hc expression h)
  | literal literal => simp [analyzeExpression, analyzeLiteral, IrExpression.resolve]
  | location location =>
    cases h with
    | location h => exact analyzeLocation_lookups s hc location h
  | methodCall identifier arguments =>
    cases h with
    | methodCall h value =>
      exact (errorIf_lookups _ _ _).trans (analyzeMethodCallWith_lookups hc
        (fun s hc h => analyzeImportedMethodCallArguments_lookups s hc arguments h)
        (fun fields s hc h => analyzeMethodCallArguments_lookups s hc fields fields arguments h) h)
  | binary operator left right =>
    cases h with
    | binary op hl hr =>
      have scopes := (analyzeExpression_sameScopes s left).context
      simp only [analyzeExpression, checkBinaryOperands_lookups, IrExpression.resolve]
      rw [analyzeExpression_lookups _ (scopes.trans hc) right hr, analyzeExpression_lookups s hc left hl,
        List.append_assoc]

/-- A typed location looks its names up where they resolve. -/
private theorem analyzeLocation_lookups (s : Semantics) (hc : s.context = c) (location : IrLocation) {field : IrField}
    {type : IrDataType} (h : LocationTyped r c location field type) :
    (analyzeLocation s location).1.state.lookups =
      s.lookups ++ (analyzeLocation s location).1.node.resolve c := by
  cases location with
  | scalar node identifier =>
    cases h with
    | scalar found =>
      have hf : (s.getFieldDeclaration identifier).1 = _ := (congrArg (Context.field · identifier) hc).trans found
      simp [analyzeLocation, hf, IrLocation.resolve, Context.resolveName, found, logLookup,
        s.getFieldDeclaration_lookups]
  | element node identifier index =>
    cases h with
    | element found array h =>
      have hf : (s.getFieldDeclaration identifier).1 = _ := (congrArg (Context.field · identifier) hc).trans found
      have scopes := ((((SameScopes.refl s).getFieldDeclaration identifier).logLookup node field).errorIf
        (field.type.isArray = false) ("Cannot index into a non-array field '" ++ identifier ++ "'")).context
      simp only [analyzeLocation, hf, errorIf_lookups, IrLocation.resolve, Context.resolveName, found]
      rw [analyzeExpression_lookups _ (scopes.trans hc) index h]
      simp [logLookup, s.getFieldDeclaration_lookups]

private theorem analyzeImportedMethodCallArguments_lookups (s : Semantics) (hc : s.context = c)
    (arguments : IrArguments) (h : ImportedArgumentsTyped r c arguments) :
    (analyzeImportedMethodCallArguments s arguments).2.lookups =
      s.lookups ++ (analyzeImportedMethodCallArguments s arguments).1.resolve c := by
  cases arguments with
  | nil => exact (List.append_nil _).symm
  | string string rest =>
    cases h with
    | string h => exact analyzeImportedMethodCallArguments_lookups s hc rest h
  | expression expression rest =>
    cases h with
    | expression ht h =>
      have scopes := (analyzeExpression_sameScopes s expression).context
      simp only [analyzeImportedMethodCallArguments, IrArguments.resolve]
      rw [analyzeImportedMethodCallArguments_lookups _ (scopes.trans hc) rest h,
        analyzeExpression_lookups s hc expression ht, List.append_assoc]

private theorem analyzeMethodCallArguments_lookups (s : Semantics) (hc : s.context = c)
    (fields checked : List IrField) (arguments : IrArguments) (h : ArgumentsTyped r c fields arguments) :
    (analyzeMethodCallArguments s checked arguments).2.lookups =
      s.lookups ++ (analyzeMethodCallArguments s checked arguments).1.resolve c := by
  cases arguments with
  | nil => exact (List.append_nil _).symm
  | string string rest => cases h
  | expression expression rest =>
    cases h with
    | expression ht h =>
      have scopes := ((analyzeExpression_sameScopes s expression).errorIf
        (checked.head?.map IrField.type ≠ some (analyzeExpression s expression).type)
        "Incorrect type passed into method call").context
      simp only [analyzeMethodCallArguments, IrArguments.resolve]
      rw [analyzeMethodCallArguments_lookups _ (scopes.trans hc) _ _ rest h, errorIf_lookups,
        analyzeExpression_lookups s hc expression ht, List.append_assoc]

end

private theorem analyzeMethodCall_lookups {s : Semantics} (hc : s.context = c) {identifier : String}
    {arguments : IrArguments} {type : IrDataType} (h : CallTyped r c identifier arguments type) :
    (analyzeMethodCall s identifier arguments).state.lookups =
      s.lookups ++ (analyzeMethodCall s identifier arguments).node.resolve c :=
  analyzeMethodCallWith_lookups hc
    (fun s hc h => analyzeImportedMethodCallArguments_lookups s hc arguments h)
    (fun fields s hc h => analyzeMethodCallArguments_lookups s hc fields fields arguments h) h

/-- A typed assignment looks its names up where they resolve. -/
private theorem analyzeAssignment_lookups {s : Semantics} (hc : s.context = c) {assignment : IrAssignment}
    (h : AssignmentTyped r c assignment) :
    (analyzeAssignment s assignment).2.lookups = s.lookups ++ (analyzeAssignment s assignment).1.resolve c := by
  obtain ⟨field, type, hl, constant, scalar, int, hx⟩ := h.location
  have location := analyzeLocation_lookups s hc assignment.location hl
  unfold analyzeAssignment IrAssignment.resolve
  dsimp only
  cases he : assignment.expression with
  | none => simp [location]
  | some expression =>
    have scopes := (((analyzeLocation_sameScopes s assignment.location).errorIf
      ((analyzeLocation s assignment.location).2 = true)
      ("Cannot assign to constant field '" ++ assignment.location.identifier ++ "'")).errorIf
      ((analyzeLocation s assignment.location).1.type.isArray = true)
      ("Cannot assign to array typed field '" ++ assignment.location.identifier ++ "'")).errorIf
      (assignment.assignOperator ≠ .set ∧ (analyzeLocation s assignment.location).1.type ≠ .int)
      "Arithmetic assignment cannot be applied to field that is not of type int"
    simp only [errorIf_lookups, Option.map_some, Option.getD_some]
    rw [analyzeExpression_lookups _ (scopes.context.trans hc) expression (hx expression he)]
    simp [location]

private theorem analyzeForUpdate_lookups {s : Semantics} (hc : s.context = c) {update : IrForUpdate}
    (h : ForUpdateTyped r c update) :
    (analyzeForUpdate s update).2.lookups = s.lookups ++ (analyzeForUpdate s update).1.resolve c := by
  cases h with
  | methodCall h => exact analyzeMethodCall_lookups hc h
  | assignment h => exact analyzeAssignment_lookups hc h

private theorem analyzeReturnStatement_lookups {s : Semantics} (hc : s.context = c) {returnType : IrDataType}
    {expression : Option IrExpression} (h : ReturnTyped r c returnType expression) :
    (analyzeReturnStatement s expression).2.lookups = s.lookups ++
      ((analyzeReturnStatement s expression).1.map fun expression => expression.resolve c).getD [] := by
  cases h with
  | none h => simp [analyzeReturnStatement]
  | some h => simpa [analyzeReturnStatement] using analyzeExpression_lookups s hc _ h

end

@[refl] theorem Context.Agree.refl (c : Context) : c.Agree c :=
  ⟨rfl, fun _ method found => ⟨method, found, rfl, rfl, rfl⟩⟩

private theorem analyzeInitializerLiteral_lookups (accumulated : IrDataType × Semantics) (literal : IrLiteral) :
    (analyzeInitializerLiteral accumulated literal).2.lookups = accumulated.2.lookups := by
  unfold analyzeInitializerLiteral analyzeLiteral
  dsimp only
  split <;> simp

private theorem analyzeInitializer_lookups (s : Semantics) (initializer : IrInitializer) :
    (analyzeInitializer s initializer).2.lookups = s.lookups := by
  have fold (literals : List IrLiteral) (accumulated : IrDataType × Semantics) :
      (literals.foldl analyzeInitializerLiteral accumulated).2.lookups = accumulated.2.lookups := by
    induction literals generalizing accumulated with
    | nil => rfl
    | cons literal rest ih => exact (ih _).trans (analyzeInitializerLiteral_lookups accumulated literal)
  exact fold initializer.literals (.void, s)

private theorem declareField_lookups (s : Semantics) (field : IrField) :
    (s.declareField field).lookups = s.lookups := by
  unfold declareField
  split_ifs <;> rfl

private theorem analyzeField_lookups (s : Semantics) (field : IrField) :
    (analyzeField s field).lookups = s.lookups := by
  unfold analyzeField
  dsimp only
  split
  · simp [analyzeInitializer_lookups, declareField_lookups]
  · split <;> simp [declareField_lookups, semanticError]

private theorem analyzeFields_lookups (s : Semantics) (fields : List IrField) :
    (analyzeFields s fields).lookups = s.lookups := by
  unfold analyzeFields
  induction fields generalizing s with
  | nil => rfl
  | cons field rest ih => exact (ih _).trans (analyzeField_lookups s field)

section
variable {returnType : IrDataType}

/-- As `Running.next`, when the updated nodes live in the checker's own context. -/
theorem Semantics.Running.step {s s' : Semantics} (h : s.Running returnType s.context) (scopes : s.SameScopes s')
    (error : s'.error = false) : s'.Running returnType s'.context :=
  scopes.context ▸ h.next scopes error

mutual

/-- A typed statement looks its names up where they resolve. -/
private theorem analyzeStatement_lookups (s : Semantics) (running : s.Running returnType s.context)
    (statement : IrStatement) (h : StatementTyped checkerRules returnType s.context s.InLoop statement) :
    (analyzeStatement s statement).2.lookups =
      s.lookups ++ (analyzeStatement s statement).1.resolve s.context := by
  cases statement with
  | assignment assignment =>
    cases h with
    | assignment h => exact analyzeAssignment_lookups rfl h
  | methodCall identifier arguments =>
    cases h with
    | methodCall h => exact analyzeMethodCall_lookups rfl h
  | ifStatement condition ifBlock =>
    cases h with
    | ifStatement hc hb =>
      have scopes := (analyzeExpression_sameScopes s condition).errorIf
        ((analyzeExpression s condition).type ≠ .bool)
        "Condition expression in if statement must be of type bool"
      obtain ⟨he, ht⟩ := analyzeExpression_complete s condition running.error hc
      have inner := running.step scopes ((errorIf_error _ _ _).mpr ⟨he, by simp [ht]⟩)
      rw [← scopes.context, ← scopes.inLoop] at hb
      simp only [analyzeStatement, IrStatement.resolve]
      rw [analyzeBlock_lookups _ inner [] ifBlock hb, errorIf_lookups,
        analyzeExpression_lookups s rfl condition hc, scopes.context, List.append_assoc]
      rfl
  | ifElseStatement condition ifBlock elseBlock =>
    cases h with
    | ifElseStatement hc hb hb' =>
      have scopes := (analyzeExpression_sameScopes s condition).errorIf
        ((analyzeExpression s condition).type ≠ .bool)
        "Condition expression in if statement must be of type bool"
      have scopes' := scopes.trans (analyzeBlock_sameScopes _ [] ifBlock)
      obtain ⟨he, ht⟩ := analyzeExpression_complete s condition running.error hc
      have inner := running.step scopes ((errorIf_error _ _ _).mpr ⟨he, by simp [ht]⟩)
      rw [← scopes.context, ← scopes.inLoop] at hb
      rw [← scopes'.context, ← scopes'.inLoop] at hb'
      have inner' := running.step scopes'
        (analyzeBlock_complete _ [] ifBlock inner.nested inner.current inner.error hb)
      simp only [analyzeStatement, IrStatement.resolve]
      rw [analyzeBlock_lookups _ inner' [] elseBlock hb', analyzeBlock_lookups _ inner [] ifBlock hb,
        errorIf_lookups, analyzeExpression_lookups s rfl condition hc, scopes'.context, scopes.context]
      simp only [List.append_assoc, List.map_nil]
  | forStatement initial condition update block =>
    cases h with
    | forStatement hi hc hu hb =>
      have loop : (enterLoop s).Running returnType (enterLoop s).context :=
        ⟨.refl _, running.2, running.3, running.4⟩
      have initialScopes := analyzeAssignment_sameScopes (enterLoop s) initial
      have conditionScopes := (initialScopes.trans (analyzeExpression_sameScopes _ condition)).errorIf
        ((analyzeExpression (analyzeAssignment (enterLoop s) initial).2 condition).type ≠ .bool)
        "Condition expression in for statement must be of type bool"
      have updateScopes := conditionScopes.trans (analyzeForUpdate_sameScopes _ update)
      have initialRunning := loop.step initialScopes (analyzeAssignment_complete (s := enterLoop s)
        running.error hi)
      have initialLookups := analyzeAssignment_lookups (s := enterLoop s) rfl hi
      rw [← initialScopes.loop.1] at hc
      rw [← conditionScopes.loop.1] at hu
      rw [← updateScopes.loop.1, ← updateScopes.loop.2.1] at hb
      obtain ⟨he, ht⟩ := analyzeExpression_complete _ condition initialRunning.error hc
      have conditionRunning := loop.step conditionScopes ((errorIf_error _ _ _).mpr ⟨he, by simp [ht]⟩)
      have updateRunning := loop.step updateScopes (analyzeForUpdate_complete conditionRunning.error hu)
      simp only [analyzeStatement, IrStatement.resolve]
      rw [show ∀ s : Semantics, (leaveLoop s).lookups = s.lookups from fun _ => rfl,
        analyzeBlock_lookups _ updateRunning [] block hb, analyzeForUpdate_lookups rfl hu, errorIf_lookups,
        analyzeExpression_lookups _ rfl condition hc, initialLookups, updateScopes.loop.1,
        conditionScopes.loop.1, initialScopes.loop.1]
      simp only [List.append_assoc, List.map_nil]
      rfl
  | whileStatement condition block =>
    cases h with
    | whileStatement hc hb =>
      have loop : (enterLoop s).Running returnType (enterLoop s).context :=
        ⟨.refl _, running.2, running.3, running.4⟩
      have scopes := (analyzeExpression_sameScopes (enterLoop s) condition).errorIf
        ((analyzeExpression (enterLoop s) condition).type ≠ .bool)
        "Condition expression in while statement must be of type bool"
      obtain ⟨he, ht⟩ := analyzeExpression_complete (enterLoop s) condition running.error hc
      have inner := loop.step scopes ((errorIf_error _ _ _).mpr ⟨he, by simp [ht]⟩)
      rw [← scopes.loop.1, ← scopes.loop.2.1] at hb
      simp only [analyzeStatement, IrStatement.resolve]
      rw [show ∀ s : Semantics, (leaveLoop s).lookups = s.lookups from fun _ => rfl,
        analyzeBlock_lookups _ inner [] block hb, errorIf_lookups,
        analyzeExpression_lookups (enterLoop s) rfl condition hc, scopes.loop.1, List.append_assoc]
      rfl
  | returnStatement expression =>
    cases h with
    | returnStatement h => exact analyzeReturnStatement_lookups rfl h
  | continueStatement => simp [analyzeStatement, IrStatement.resolve]
  | breakStatement => simp [analyzeStatement, IrStatement.resolve]

/-- A typed block looks its names up where they resolve. -/
private theorem analyzeBlock_lookups (s : Semantics) (running : s.Running returnType s.context)
    (initial : List IrField) (block : IrBlock)
    (h : BlockTyped checkerRules returnType s.context s.InLoop initial block) :
    (analyzeBlock s initial block).2.lookups =
      s.lookups ++ (analyzeBlock s initial block).1.resolve s.context (initial.map IrField.analyzed) := by
  cases block with
  | mk fields statements =>
    cases h with
    | mk scope h =>
      have declared := (analyzeFields_sameOutside (s.pushScope []) initial).trans
        (analyzeFields_sameOutside _ fields)
      have inLoop : (analyzeFields (analyzeFields (s.pushScope []) initial) fields).InLoop = s.InLoop := by
        unfold Semantics.InLoop
        rw [declared.loopDepth]
        rfl
      obtain ⟨hiff, hcontext⟩ := blockFields_error (s := s) initial fields running.nested
      have hd := hiff.mpr ⟨running.error, scope⟩
      have inner : (analyzeFields (analyzeFields (s.pushScope []) initial) fields).Running returnType
          (analyzeFields (analyzeFields (s.pushScope []) initial) fields).context :=
        ⟨.refl _, blockFields_nested initial fields running.nested, declared.currentMethod ▸ running.current, hd⟩
      rw [← hcontext hd, ← inLoop] at h
      have statementsLookups := analyzeStatements_lookups _ inner statements h
      rw [hcontext hd, List.map_append] at statementsLookups
      refine statementsLookups.trans (congrArg (· ++ _) ?_)
      rw [analyzeFields_lookups, analyzeFields_lookups]
      rfl

/-- Typed statements look their names up where they resolve. -/
private theorem analyzeStatements_lookups (s : Semantics) (running : s.Running returnType s.context)
    (statements : IrStatements)
    (h : StatementsTyped checkerRules returnType s.context s.InLoop statements) :
    (analyzeStatements s statements).2.lookups =
      s.lookups ++ (analyzeStatements s statements).1.resolve s.context := by
  cases statements with
  | nil => exact (List.append_nil _).symm
  | cons statement rest =>
    cases h with
    | cons ht hr =>
      have scopes := analyzeStatement_sameScopes s statement
      have next := running.step scopes
        (analyzeStatement_complete s statement running.nested running.current running.error ht)
      rw [← scopes.context, ← scopes.inLoop] at hr
      simp only [analyzeStatements, IrStatements.resolve]
      rw [analyzeStatements_lookups _ next rest hr, analyzeStatement_lookups s running statement ht,
        scopes.context, List.append_assoc]

end
end

section
variable {c c' : Context}

private theorem resolveName_congr (h : c'.scopes = c.scopes) (node : Nat) (identifier : String) :
    c'.resolveName node identifier = c.resolveName node identifier := by
  simp only [Context.resolveName, Context.field, h]

mutual

theorem IrExpression.resolve_congr (h : c'.scopes = c.scopes) (expression : IrExpression) :
    expression.resolve c' = expression.resolve c := by
  cases expression with
  | binary operator left right =>
    simp only [IrExpression.resolve, left.resolve_congr h, right.resolve_congr h]
  | not expression => exact expression.resolve_congr h
  | negate expression => exact expression.resolve_congr h
  | len identifier length => rfl
  | methodCall identifier arguments => exact arguments.resolve_congr h
  | literal literal => rfl
  | location location => exact location.resolve_congr h

theorem IrLocation.resolve_congr (h : c'.scopes = c.scopes) (location : IrLocation) :
    location.resolve c' = location.resolve c := by
  cases location with
  | scalar node identifier => exact resolveName_congr h node identifier
  | element node identifier index =>
    simp only [IrLocation.resolve, resolveName_congr h, index.resolve_congr h]

theorem IrArguments.resolve_congr (h : c'.scopes = c.scopes) (arguments : IrArguments) :
    arguments.resolve c' = arguments.resolve c := by
  cases arguments with
  | nil => rfl
  | string string rest => exact rest.resolve_congr h
  | expression expression rest => simp only [IrArguments.resolve, expression.resolve_congr h, rest.resolve_congr h]

end

variable (h : c'.scopes = c.scopes)
include h

theorem IrAssignment.resolve_congr (assignment : IrAssignment) :
    assignment.resolve c' = assignment.resolve c := by
  unfold IrAssignment.resolve
  rw [IrLocation.resolve_congr h]
  cases assignment.expression <;> simp [IrExpression.resolve_congr h]

theorem IrForUpdate.resolve_congr (update : IrForUpdate) : update.resolve c' = update.resolve c := by
  cases update with
  | methodCall identifier arguments => exact IrArguments.resolve_congr h arguments
  | assignment update => exact IrAssignment.resolve_congr h update

end

mutual

/-- Names resolve by the scopes only. -/
theorem IrStatement.resolve_congr {c c' : Context} (h : c'.scopes = c.scopes) (statement : IrStatement) :
    statement.resolve c' = statement.resolve c := by
  cases statement with
  | assignment statement => exact IrAssignment.resolve_congr h statement
  | methodCall identifier arguments => exact IrArguments.resolve_congr h arguments
  | ifStatement condition ifBlock =>
    simp only [IrStatement.resolve, IrExpression.resolve_congr h, IrBlock.resolve_congr h]
  | ifElseStatement condition ifBlock elseBlock =>
    simp only [IrStatement.resolve, IrExpression.resolve_congr h, IrBlock.resolve_congr h]
  | forStatement initial condition update block =>
    simp only [IrStatement.resolve, IrAssignment.resolve_congr h, IrExpression.resolve_congr h,
      IrForUpdate.resolve_congr h, IrBlock.resolve_congr h]
  | whileStatement condition block =>
    simp only [IrStatement.resolve, IrExpression.resolve_congr h, IrBlock.resolve_congr h]
  | returnStatement expression => cases expression <;> simp [IrStatement.resolve, IrExpression.resolve_congr h]
  | breakStatement => rfl
  | continueStatement => rfl

theorem IrBlock.resolve_congr {c c' : Context} (h : c'.scopes = c.scopes) (block : IrBlock)
    (initial : List IrField) : block.resolve c' initial = block.resolve c initial := by
  cases block with
  | mk fields statements =>
    exact IrStatements.resolve_congr (congrArg ((initial ++ fields) :: ·) h) statements

theorem IrStatements.resolve_congr {c c' : Context} (h : c'.scopes = c.scopes) (statements : IrStatements) :
    statements.resolve c' = statements.resolve c := by
  cases statements with
  | nil => rfl
  | cons statement rest =>
    simp only [IrStatements.resolve, IrStatement.resolve_congr h statement, IrStatements.resolve_congr h rest]

end

/-- Accepted methods look their names up where they resolve. -/
private theorem analyzeMethods_lookups {s : Semantics} {table : List IrField} (stack : s.fieldsTableStack = [table])
    (depth : s.loopDepth = 0) {methods : List IrMethod} (herror : (analyzeMethods s methods).2.error = false)
    (h : MethodsTyped checkerRules ⟨[table], s.methodsTable⟩ methods) :
    (analyzeMethods s methods).2.lookups = s.lookups ++ (analyzeMethods s methods).1.flatMap
      fun method => method.block.resolve ⟨[table], []⟩ method.arguments := by
  induction methods generalizing s with
  | nil => exact (List.append_nil _).symm
  | cons method rest ih =>
    cases h with
    | cons hm hr =>
      obtain ⟨hiff, hstack, hdepth, hmethods⟩ := analyzeMethod_error stack depth method
      have first := ((analyzeMethods_error hstack hdepth rest).1.mp herror).1
      rw [← hmethods first] at hr
      have others := ih hstack hdepth herror hr
      obtain ⟨hd, hstate⟩ := declareMethod_error stack method
      have declared := hstate (hd.mpr ⟨(hiff.mp first).1, (hiff.mp first).2.1⟩)
      have inLoop : Semantics.InLoop { s with
          methodsTable := s.methodsTable ++ [method], currentMethod := some method } = False := by
        simp [Semantics.InLoop, depth]
      have running : Semantics.Running { s with
          methodsTable := s.methodsTable ++ [method], currentMethod := some method } method.returnType
          (Semantics.context { s with
            methodsTable := s.methodsTable ++ [method], currentMethod := some method }) :=
        ⟨.refl _, by simp [stack], rfl, (hiff.mp first).1⟩
      have block := analyzeBlock_lookups _ running method.arguments method.block (by
        rw [inLoop]
        simpa only [Semantics.context, stack] using hm)
      have unfolded : (analyzeMethod s method).2.lookups = s.lookups ++
          (analyzeMethod s method).1.block.resolve ⟨[table], []⟩ (analyzeMethod s method).1.arguments := by
        unfold analyzeMethod
        rw [declared]
        refine block.trans (congrArg (s.lookups ++ ·) ?_)
        exact (IrBlock.resolve_congr stack.symm _ _).symm
      simp only [analyzeMethods, List.flatMap_cons]
      rw [others, unfolded, List.append_assoc]

/-- The lookups that the checker makes for an accepted program. -/
theorem accepts_lookups {program analyzed : IrProgram} (source : program.FromSource)
    (h : Accepts program analyzed) : (analyzeProgram semanticsNew program).2.lookups = analyzed.resolve := by
  have herror := accepts_error h
  have typed := ((programTyped_and program).mp (accepts_typed source h)).1
  obtain ⟨_, rfl⟩ := Prod.ext_iff.mp h
  obtain ⟨table, stack, depth, _, globals⟩ := declarations_spec program
  have hmethods := (checkMain_error.mp herror).1
  obtain ⟨rfl, methodsTable⟩ := globals ((analyzeMethods_error stack depth program.methods).1.mp hmethods).1
  have methods := analyzeMethods_lookups stack depth hmethods (by rw [methodsTable]; exact typed.methods)
  have main (s : Semantics) : (checkMain s).popScope.lookups = s.lookups := by
    unfold checkMain
    split
    · rfl
    · split_ifs <;> first | rfl | simp [popScope]
  have start : (declarations program).lookups = [] := by
    rw [declarations, analyzeFields_lookups]
    have imports (methods : List IrMethod) (s : Semantics) :
        (methods.foldl declareMethod s).lookups = s.lookups := by
      induction methods generalizing s with
      | nil => rfl
      | cons method rest ih =>
        refine (ih _).trans ?_
        unfold declareMethod
        split_ifs <;> rfl
    exact imports _ _
  have unfolded : (analyzeProgram semanticsNew program).2 =
      (checkMain (analyzeMethods (declarations program) program.methods).2).popScope := rfl
  rw [unfolded, main, methods, start]
  rfl

end Roast
