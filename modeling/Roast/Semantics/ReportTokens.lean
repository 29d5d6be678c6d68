import Roast.Semantics.Resolution

/-! The tokens that error reports read. Every report takes its position from the token of a node. A constructor of
the representation copies it from the syntax tree or never assigns it: `ir_field_new_from_method_argument` leaves the
token of a parameter, `ir_assignment_new_from_identifier` that of the location which a `for` statement assigns first.
Each function here follows the checker's function of its name and lists the tokens of its reports in order. -/
namespace Roast
open Semantics

/-- The token that a `semantic_error` reads. -/
inductive ReportToken where
  | copied
  | unassigned
  deriving DecidableEq, Repr

def reportIf (condition : Prop) [Decidable condition] (token : ReportToken) : List ReportToken :=
  if condition then [token] else []

/-- `field->token` in `declare_field` is the given token. -/
def Semantics.declareFieldTokens (s : Semantics) (field : IrField) (token : ReportToken) : List ReportToken :=
  reportIf ((s.fieldsTableGetLocal field.identifier).isSome ∨
    s.fieldsTableStack.length = 1 ∧ (s.methodsTableGet field.identifier).isSome) token

def Semantics.declareMethodTokens (s : Semantics) (method : IrMethod) : List ReportToken :=
  reportIf ((s.methodsTableGet method.identifier).isSome ∨ (s.fieldsTableGetLocal method.identifier).isSome) .copied

def Semantics.getMethodDeclarationTokens (s : Semantics) (identifier : String) : List ReportToken :=
  reportIf ((s.fieldsTableGet identifier).isSome ∨ s.methodsTableGet identifier = none) .copied

def Semantics.getFieldDeclarationTokens (s : Semantics) (identifier : String) (token : ReportToken) :
    List ReportToken :=
  reportIf (s.fieldsTableGet identifier = none) token

def analyzeLiteralTokens (literal : IrLiteral) : List ReportToken :=
  reportIf (literal.type = .int ∧ literal.value = overflowMarker) .copied

def checkBinaryOperandsTokens (operator : IrBinaryOperator) (leftType rightType : IrDataType) : List ReportToken :=
  if operator.takesInts then reportIf (leftType ≠ .int ∨ rightType ≠ .int) .copied
  else if operator.takesBools then reportIf (leftType ≠ .bool ∨ rightType ≠ .bool) .copied
  else reportIf (leftType.isArray ∨ rightType.isArray) .copied ++ reportIf (leftType ≠ rightType) .copied

def analyzeMethodCallWithTokens (s : Semantics) (identifier : String) (arguments : IrArguments)
    (imported : Semantics → List ReportToken) (regular : List IrField → Semantics → List ReportToken) :
    List ReportToken :=
  let found := s.getMethodDeclaration identifier
  s.getMethodDeclarationTokens identifier ++
    match found.1 with
    | none => []
    | some method =>
      if method.imported then imported found.2
      else if method.arguments.length ≠ arguments.length then [.copied]
      else regular method.arguments found.2

mutual

def analyzeExpressionTokens (s : Semantics) : IrExpression → List ReportToken
  | .len identifier _ =>
    s.getFieldDeclarationTokens identifier .copied ++
      match (s.getFieldDeclaration identifier).1 with
      | none => []
      | some field => reportIf (¬ field.type.isArray) .copied
  | .negate expression =>
    analyzeExpressionTokens s expression ++ reportIf ((analyzeExpression s expression).type ≠ .int) .copied
  | .not expression =>
    analyzeExpressionTokens s expression ++ reportIf ((analyzeExpression s expression).type ≠ .bool) .copied
  | .literal literal => analyzeLiteralTokens literal
  | .location location => analyzeLocationTokens s .copied location
  | .methodCall identifier arguments =>
    analyzeMethodCallWithTokens s identifier arguments
      (fun s => analyzeImportedMethodCallArgumentsTokens s arguments)
      (fun fields s => analyzeMethodCallArgumentsTokens s fields arguments) ++
      reportIf ((analyzeMethodCall s identifier arguments).type = .void) .copied
  | .binary operator left right =>
    let leftResult := analyzeExpression s left
    analyzeExpressionTokens s left ++ analyzeExpressionTokens leftResult.state right ++
      checkBinaryOperandsTokens operator leftResult.type (analyzeExpression leftResult.state right).type

def analyzeLocationTokens (s : Semantics) (token : ReportToken) : IrLocation → List ReportToken
  | .scalar _ identifier => s.getFieldDeclarationTokens identifier token
  | .element node identifier index =>
    let found := s.getFieldDeclaration identifier
    s.getFieldDeclarationTokens identifier token ++
      match found.1 with
      | none => []
      | some field =>
        let s := (found.2.logLookup node field).errorIf (field.type.isArray = false)
          ("Cannot index into a non-array field '" ++ identifier ++ "'")
        reportIf (field.type.isArray = false) token ++ analyzeExpressionTokens s index ++
          reportIf ((analyzeExpression s index).type ≠ .int) token

def analyzeImportedMethodCallArgumentsTokens (s : Semantics) : IrArguments → List ReportToken
  | .nil => []
  | .string _ rest => analyzeImportedMethodCallArgumentsTokens s rest
  | .expression expression rest =>
    analyzeExpressionTokens s expression ++
      analyzeImportedMethodCallArgumentsTokens (analyzeExpression s expression).state rest

def analyzeMethodCallArgumentsTokens (s : Semantics) (fields : List IrField) : IrArguments → List ReportToken
  | .nil => []
  | .string _ rest =>
    .unassigned :: analyzeMethodCallArgumentsTokens
      (s.semanticError "String not allowed in non-imported methods") fields.tail rest
  | .expression expression rest =>
    let first := analyzeExpression s expression
    let s' := first.state.errorIf (fields.head?.map IrField.type ≠ some first.type)
      "Incorrect type passed into method call"
    analyzeExpressionTokens s expression ++ reportIf (fields.head?.map IrField.type ≠ some first.type) .unassigned ++
      analyzeMethodCallArgumentsTokens s' fields.tail rest

end

def analyzeMethodCallTokens (s : Semantics) (identifier : String) (arguments : IrArguments) : List ReportToken :=
  analyzeMethodCallWithTokens s identifier arguments
    (fun s => analyzeImportedMethodCallArgumentsTokens s arguments)
    (fun fields s => analyzeMethodCallArgumentsTokens s fields arguments)

def analyzeInitializerLiteralTokens (accumulated : IrDataType × Semantics) (literal : IrLiteral) : List ReportToken :=
  analyzeLiteralTokens literal ++
    reportIf (accumulated.1 ≠ .void ∧ (analyzeLiteral accumulated.2 literal).1 ≠ accumulated.1) .copied

def analyzeInitializerLiteralsTokens (accumulated : IrDataType × Semantics) : List IrLiteral → List ReportToken
  | [] => []
  | literal :: rest => analyzeInitializerLiteralTokens accumulated literal ++
    analyzeInitializerLiteralsTokens (analyzeInitializerLiteral accumulated literal) rest

def analyzeFieldTokens (s : Semantics) (token : ReportToken) (field : IrField) : List ReportToken :=
  let declared := s.declareField field.analyzed
  s.declareFieldTokens field.analyzed token ++
    match field.initializer with
    | some initializer =>
      analyzeInitializerLiteralsTokens (.void, declared) initializer.literals ++
        reportIf ((analyzeInitializer declared initializer).1 ≠ field.type) token ++
        reportIf (field.type.isArray ∧ initializer.array ∧ field.arrayLength ≠ -1) token
    | none =>
      reportIf (field.type.isArray ∧ (field.arrayLength = -1 ∨ field.arrayLength = 0)) token ++
        reportIf field.constant token

def analyzeFieldsTokens (s : Semantics) (token : ReportToken) : List IrField → List ReportToken
  | [] => []
  | field :: rest => analyzeFieldTokens s token field ++ analyzeFieldsTokens (analyzeField s field) token rest

def analyzeAssignmentTokens (s : Semantics) (token : ReportToken) (assignment : IrAssignment) : List ReportToken :=
  let location := analyzeLocation s assignment.location
  let type := location.1.type
  analyzeLocationTokens s token assignment.location ++ reportIf location.2 .copied ++ reportIf type.isArray .copied ++
    reportIf (assignment.assignOperator ≠ .set ∧ type ≠ .int) .copied ++
      match assignment.expression with
      | none => []
      | some expression =>
        let s := location.1.state.errorIf location.2
          ("Cannot assign to constant field '" ++ assignment.location.identifier ++ "'")
        let s := s.errorIf type.isArray
          ("Cannot assign to array typed field '" ++ assignment.location.identifier ++ "'")
        let s := s.errorIf (assignment.assignOperator ≠ .set ∧ type ≠ .int)
          "Arithmetic assignment cannot be applied to field that is not of type int"
        analyzeExpressionTokens s expression ++ reportIf ((analyzeExpression s expression).type ≠ type) .copied

/-- `ir_assignment_new_from_identifier` makes the scalar locations of `for` statements, with no token. -/
def IrLocation.initialToken : IrLocation → ReportToken
  | .scalar _ _ => .unassigned
  | .element _ _ _ => .copied

def analyzeForUpdateTokens (s : Semantics) : IrForUpdate → List ReportToken
  | .assignment assignment => analyzeAssignmentTokens s .copied assignment
  | .methodCall identifier arguments => analyzeMethodCallTokens s identifier arguments

def analyzeReturnStatementTokens (s : Semantics) : Option IrExpression → List ReportToken
  | none => reportIf (s.currentMethod.map IrMethod.returnType ≠ some .void) .copied
  | some expression =>
    let result := analyzeExpression s expression
    analyzeExpressionTokens s expression ++
      reportIf (result.state.currentMethod.map IrMethod.returnType ≠ some result.type) .copied

mutual

def analyzeStatementTokens (s : Semantics) : IrStatement → List ReportToken
  | .assignment assignment => analyzeAssignmentTokens s .copied assignment
  | .methodCall identifier arguments => analyzeMethodCallTokens s identifier arguments
  | .ifStatement condition ifBlock =>
    let result := analyzeExpression s condition
    let s' := result.state.errorIf (result.type ≠ .bool) "Condition expression in if statement must be of type bool"
    analyzeExpressionTokens s condition ++ reportIf (result.type ≠ .bool) .copied ++ analyzeBlockTokens s' [] ifBlock
  | .ifElseStatement condition ifBlock elseBlock =>
    let result := analyzeExpression s condition
    let s' := result.state.errorIf (result.type ≠ .bool) "Condition expression in if statement must be of type bool"
    analyzeExpressionTokens s condition ++ reportIf (result.type ≠ .bool) .copied ++
      analyzeBlockTokens s' [] ifBlock ++ analyzeBlockTokens (analyzeBlock s' [] ifBlock).2 [] elseBlock
  | .forStatement initial condition update block =>
    let first := analyzeAssignment (enterLoop s) initial
    let result := analyzeExpression first.2 condition
    let s' := result.state.errorIf (result.type ≠ .bool) "Condition expression in for statement must be of type bool"
    analyzeAssignmentTokens (enterLoop s) initial.location.initialToken initial ++
      analyzeExpressionTokens first.2 condition ++ reportIf (result.type ≠ .bool) .copied ++
      analyzeForUpdateTokens s' update ++ analyzeBlockTokens (analyzeForUpdate s' update).2 [] block
  | .whileStatement condition block =>
    let result := analyzeExpression (enterLoop s) condition
    let s' := result.state.errorIf (result.type ≠ .bool) "Condition expression in while statement must be of type bool"
    analyzeExpressionTokens (enterLoop s) condition ++ reportIf (result.type ≠ .bool) .copied ++
      analyzeBlockTokens s' [] block
  | .returnStatement expression => analyzeReturnStatementTokens s expression
  | .continueStatement | .breakStatement => reportIf (s.loopDepth = 0) .copied

def analyzeBlockTokens (s : Semantics) (initialFields : List IrField) : IrBlock → List ReportToken
  | .mk fields statements =>
    let entered := analyzeFields (s.pushScope []) initialFields
    analyzeFieldsTokens (s.pushScope []) .unassigned initialFields ++ analyzeFieldsTokens entered .copied fields ++
      analyzeStatementsTokens (analyzeFields entered fields) statements

def analyzeStatementsTokens (s : Semantics) : IrStatements → List ReportToken
  | .nil => []
  | .cons statement rest =>
    analyzeStatementTokens s statement ++ analyzeStatementsTokens (analyzeStatement s statement).2 rest

end

def analyzeMethodTokens (s : Semantics) (method : IrMethod) : List ReportToken :=
  s.declareMethodTokens method ++
    analyzeBlockTokens { s.declareMethod method with currentMethod := some method } method.arguments method.block

def analyzeMethodsTokens (s : Semantics) : List IrMethod → List ReportToken
  | [] => []
  | method :: rest => analyzeMethodTokens s method ++ analyzeMethodsTokens (analyzeMethod s method).2 rest

def checkMainTokens (s : Semantics) : List ReportToken :=
  match s.methodsTableGet "main" with
  | none => [.copied]
  | some method => reportIf (method.imported ∨ method.returnType ≠ .void ∨ method.arguments.length > 0) .copied

def declareMethodsTokens (s : Semantics) : List IrMethod → List ReportToken
  | [] => []
  | method :: rest => s.declareMethodTokens method ++ declareMethodsTokens (s.declareMethod method) rest

def analyzeProgramTokens (s : Semantics) (program : IrProgram) : List ReportToken :=
  let imported := program.imports.foldl declareMethod (s.pushScope [])
  let declared := analyzeFields imported program.fields
  declareMethodsTokens (s.pushScope []) program.imports ++ analyzeFieldsTokens imported .copied program.fields ++
    analyzeMethodsTokens declared program.methods ++ checkMainTokens (analyzeMethods declared program.methods).2

private theorem Semantics.errorIf_reports (s : Semantics) (condition : Prop) [Decidable condition] (message : String)
    (token : ReportToken) : (s.errorIf condition message).reports.length =
      s.reports.length + (reportIf condition token).length := by
  unfold errorIf reportIf
  split <;> simp [semanticError]

namespace Semantics
variable (s : Semantics) (identifier : String)

private theorem getFieldDeclaration_reports (token : ReportToken) :
    (s.getFieldDeclaration identifier).2.reports.length =
    s.reports.length + (s.getFieldDeclarationTokens identifier token).length := s.errorIf_reports _ _ _

private theorem getMethodDeclaration_reports : (s.getMethodDeclaration identifier).2.reports.length =
    s.reports.length + (s.getMethodDeclarationTokens identifier).length := by
  unfold getMethodDeclaration getMethodDeclarationTokens
  split
  · rename_i found
    simp [semanticError, reportIf, found]
  · rename_i found
    simp only [found, Bool.false_eq_true, false_or]
    exact s.errorIf_reports _ _ _

private theorem declareMethod_reports (method : IrMethod) : (s.declareMethod method).reports.length =
    s.reports.length + (s.declareMethodTokens method).length := by
  unfold declareMethod declareMethodTokens reportIf
  split_ifs <;> simp_all [semanticError]

private theorem declareField_reports (field : IrField) (token : ReportToken) : (s.declareField field).reports.length =
    s.reports.length + (s.declareFieldTokens field token).length := by
  unfold declareField declareFieldTokens reportIf
  split_ifs <;> simp_all [semanticError, fieldsTableAdd]

end Semantics

private theorem checkBinaryOperands_reports (s : Semantics) (operator : IrBinaryOperator) (left right : IrDataType) :
    (checkBinaryOperands s operator left right).reports.length =
      s.reports.length + (checkBinaryOperandsTokens operator left right).length := by
  unfold checkBinaryOperands checkBinaryOperandsTokens
  split
  · exact s.errorIf_reports _ _ _
  · split
    · exact s.errorIf_reports _ _ _
    · rw [List.length_append, errorIf_reports _ _ _ .copied, errorIf_reports _ _ _ .copied, Nat.add_assoc]

private theorem analyzeMethodCallWith_reports (s : Semantics) (identifier : String) (arguments : IrArguments)
    {imported : Semantics → IrArguments × Semantics} {regular : List IrField → Semantics → IrArguments × Semantics}
    {importedTokens : Semantics → List ReportToken} {regularTokens : List IrField → Semantics → List ReportToken}
    (hi : ∀ s : Semantics, (imported s).2.reports.length = s.reports.length + (importedTokens s).length)
    (hr : ∀ fields (s : Semantics),
      (regular fields s).2.reports.length = s.reports.length + (regularTokens fields s).length) :
    (analyzeMethodCallWith s identifier arguments imported regular).state.reports.length = s.reports.length +
      (analyzeMethodCallWithTokens s identifier arguments importedTokens regularTokens).length := by
  unfold analyzeMethodCallWith analyzeMethodCallWithTokens
  dsimp only
  rw [List.length_append, ← Nat.add_assoc, ← s.getMethodDeclaration_reports]
  cases (s.getMethodDeclaration identifier).1 with
  | none => rfl
  | some method =>
    dsimp only
    by_cases himported : method.imported
    · rw [if_pos himported, if_pos himported]
      exact hi _
    · rw [if_neg himported, if_neg himported]
      by_cases count : method.arguments.length ≠ arguments.length
      · rw [if_pos count, if_pos count]
        simp [semanticError]
      · rw [if_neg count, if_neg count]
        exact hr _ _

mutual

/-- An expression adds a report for each token. -/
private theorem analyzeExpression_reports (s : Semantics) (expression : IrExpression) :
    (analyzeExpression s expression).state.reports.length =
      s.reports.length + (analyzeExpressionTokens s expression).length := by
  cases expression with
  | len identifier length =>
    simp only [analyzeExpression, analyzeExpressionTokens]
    rw [List.length_append, ← Nat.add_assoc, ← s.getFieldDeclaration_reports]
    cases (s.getFieldDeclaration identifier).1 with
    | none => rfl
    | some field => cases array : field.type.isArray <;> simp [semanticError, reportIf, array]
  | negate expression =>
    simp only [analyzeExpression, analyzeExpressionTokens]
    rw [errorIf_reports _ _ _ .copied, analyzeExpression_reports s expression, List.length_append, Nat.add_assoc]
  | not expression =>
    simp only [analyzeExpression, analyzeExpressionTokens]
    rw [errorIf_reports _ _ _ .copied, analyzeExpression_reports s expression, List.length_append, Nat.add_assoc]
  | literal literal => exact s.errorIf_reports _ _ _
  | location location => exact analyzeLocation_reports s .copied location
  | methodCall identifier arguments =>
    simp only [analyzeExpression, analyzeExpressionTokens, analyzeMethodCall]
    rw [errorIf_reports _ _ _ .copied, List.length_append, ← Nat.add_assoc]
    congr 1
    exact analyzeMethodCallWith_reports s identifier arguments
      (fun s => analyzeImportedMethodCallArguments_reports s arguments)
      (fun fields s => analyzeMethodCallArguments_reports s fields arguments)
  | binary operator left right =>
    simp only [analyzeExpression, analyzeExpressionTokens]
    rw [checkBinaryOperands_reports, analyzeExpression_reports _ right, analyzeExpression_reports s left]
    simp only [List.length_append, Nat.add_assoc]

/-- A location adds a report for each token. -/
private theorem analyzeLocation_reports (s : Semantics) (token : ReportToken) (location : IrLocation) :
    (analyzeLocation s location).1.state.reports.length =
      s.reports.length + (analyzeLocationTokens s token location).length := by
  cases location with
  | scalar node identifier =>
    simp only [analyzeLocation, analyzeLocationTokens]
    rw [← s.getFieldDeclaration_reports]
    cases (s.getFieldDeclaration identifier).1 <;> rfl
  | element node identifier index =>
    simp only [analyzeLocation, analyzeLocationTokens]
    rw [List.length_append, ← Nat.add_assoc, ← s.getFieldDeclaration_reports]
    cases (s.getFieldDeclaration identifier).1 with
    | none => rfl
    | some field =>
      simp only [List.length_append]
      rw [errorIf_reports _ _ _ token, analyzeExpression_reports _ index, errorIf_reports _ _ _ token]
      simp only [Nat.add_assoc]
      rfl

private theorem analyzeImportedMethodCallArguments_reports (s : Semantics) (arguments : IrArguments) :
    (analyzeImportedMethodCallArguments s arguments).2.reports.length =
      s.reports.length + (analyzeImportedMethodCallArgumentsTokens s arguments).length := by
  cases arguments with
  | nil => rfl
  | string string rest => exact analyzeImportedMethodCallArguments_reports s rest
  | expression expression rest =>
    simp only [analyzeImportedMethodCallArguments, analyzeImportedMethodCallArgumentsTokens]
    rw [analyzeImportedMethodCallArguments_reports _ rest, analyzeExpression_reports s expression,
      List.length_append, Nat.add_assoc]

/-- Arguments add a report for each token. -/
private theorem analyzeMethodCallArguments_reports (s : Semantics) (fields : List IrField) (arguments : IrArguments) :
    (analyzeMethodCallArguments s fields arguments).2.reports.length =
      s.reports.length + (analyzeMethodCallArgumentsTokens s fields arguments).length := by
  cases arguments with
  | nil => rfl
  | string string rest =>
    simp only [analyzeMethodCallArguments, analyzeMethodCallArgumentsTokens]
    rw [analyzeMethodCallArguments_reports _ fields.tail rest]
    simp only [semanticError, List.length_append, List.length_cons, List.length_nil]
    omega
  | expression expression rest =>
    simp only [analyzeMethodCallArguments, analyzeMethodCallArgumentsTokens]
    rw [analyzeMethodCallArguments_reports _ fields.tail rest, errorIf_reports _ _ _ .unassigned,
      analyzeExpression_reports s expression]
    simp only [List.length_append, Nat.add_assoc]

end

private theorem analyzeMethodCall_reports (s : Semantics) (identifier : String) (arguments : IrArguments) :
    (analyzeMethodCall s identifier arguments).state.reports.length =
      s.reports.length + (analyzeMethodCallTokens s identifier arguments).length :=
  analyzeMethodCallWith_reports s identifier arguments
    (fun s => analyzeImportedMethodCallArguments_reports s arguments)
    (fun fields s => analyzeMethodCallArguments_reports s fields arguments)

private theorem analyzeInitializerLiteral_reports (accumulated : IrDataType × Semantics) (literal : IrLiteral) :
    (analyzeInitializerLiteral accumulated literal).2.reports.length =
      accumulated.2.reports.length + (analyzeInitializerLiteralTokens accumulated literal).length := by
  have first : (analyzeLiteral accumulated.2 literal).2.reports.length =
    accumulated.2.reports.length + (analyzeLiteralTokens literal).length := errorIf_reports _ _ _ _
  unfold analyzeInitializerLiteral analyzeInitializerLiteralTokens
  rw [List.length_append, ← Nat.add_assoc, ← first]
  dsimp only
  split
  · rename_i void
    simp [reportIf, void]
  · rename_i typed
    rw [errorIf_reports _ _ _ .copied]
    simp only [ne_eq, typed, not_false_iff, true_and]

private theorem analyzeInitializerLiterals_reports (literals : List IrLiteral) (accumulated : IrDataType × Semantics) :
    (literals.foldl analyzeInitializerLiteral accumulated).2.reports.length =
      accumulated.2.reports.length + (analyzeInitializerLiteralsTokens accumulated literals).length := by
  induction literals generalizing accumulated with
  | nil => rfl
  | cons literal rest ih =>
    rw [List.foldl_cons, ih, analyzeInitializerLiteral_reports, analyzeInitializerLiteralsTokens, List.length_append,
      Nat.add_assoc]

/-- A field adds a report for each token. -/
private theorem analyzeField_reports (s : Semantics) (token : ReportToken) (field : IrField) :
    (analyzeField s field).reports.length = s.reports.length + (analyzeFieldTokens s token field).length := by
  unfold analyzeField analyzeFieldTokens
  dsimp only
  rw [List.length_append, ← Nat.add_assoc, ← s.declareField_reports]
  cases field.initializer with
  | none =>
    rw [List.length_append, errorIf_reports _ _ _ token, ← Nat.add_assoc]
    congr 1
    by_cases undeclared : field.type.isArray ∧ field.arrayLength = -1
    · simp [semanticError, reportIf, undeclared]
    · rw [if_neg undeclared, errorIf_reports _ _ _ token]
      congr 2
      simp only [reportIf]
      split_ifs <;> simp_all
  | some initializer =>
    simp only [List.length_append]
    rw [errorIf_reports _ _ _ token, errorIf_reports _ _ _ token, analyzeInitializer, analyzeInitializerLiterals_reports]
    simp only [Nat.add_assoc]

private theorem analyzeFields_reports (s : Semantics) (token : ReportToken) (fields : List IrField) :
    (analyzeFields s fields).reports.length = s.reports.length + (analyzeFieldsTokens s token fields).length := by
  unfold analyzeFields
  induction fields generalizing s with
  | nil => rfl
  | cons field rest ih =>
    rw [List.foldl_cons, ih, analyzeField_reports s token, analyzeFieldsTokens, List.length_append, Nat.add_assoc]

/-- An assignment adds a report for each token. -/
private theorem analyzeAssignment_reports (s : Semantics) (token : ReportToken) (assignment : IrAssignment) :
    (analyzeAssignment s assignment).2.reports.length =
      s.reports.length + (analyzeAssignmentTokens s token assignment).length := by
  unfold analyzeAssignment analyzeAssignmentTokens
  dsimp only
  cases assignment.expression with
  | none =>
    simp only [List.length_append, List.append_nil]
    rw [errorIf_reports _ _ _ .copied, errorIf_reports _ _ _ .copied, errorIf_reports _ _ _ .copied,
      analyzeLocation_reports s token]
    simp only [Nat.add_assoc]
  | some expression =>
    simp only [List.length_append]
    rw [errorIf_reports _ _ _ .copied, analyzeExpression_reports, errorIf_reports _ _ _ .copied,
      errorIf_reports _ _ _ .copied, errorIf_reports _ _ _ .copied, analyzeLocation_reports s token]
    simp only [Nat.add_assoc]

private theorem analyzeForUpdate_reports (s : Semantics) (update : IrForUpdate) :
    (analyzeForUpdate s update).2.reports.length = s.reports.length + (analyzeForUpdateTokens s update).length := by
  cases update with
  | methodCall identifier arguments => exact analyzeMethodCall_reports s identifier arguments
  | assignment assignment => exact analyzeAssignment_reports s .copied assignment

private theorem analyzeReturnStatement_reports (s : Semantics) (expression : Option IrExpression) :
    (analyzeReturnStatement s expression).2.reports.length =
      s.reports.length + (analyzeReturnStatementTokens s expression).length := by
  cases expression with
  | none => exact s.errorIf_reports _ _ _
  | some expression =>
    simp only [analyzeReturnStatement, analyzeReturnStatementTokens]
    rw [errorIf_reports _ _ _ .copied, analyzeExpression_reports, List.length_append, Nat.add_assoc]

mutual

/-- A statement adds a report for each token. -/
private theorem analyzeStatement_reports (s : Semantics) (statement : IrStatement) :
    (analyzeStatement s statement).2.reports.length =
      s.reports.length + (analyzeStatementTokens s statement).length := by
  cases statement with
  | assignment assignment => exact analyzeAssignment_reports s .copied assignment
  | methodCall identifier arguments => exact analyzeMethodCall_reports s identifier arguments
  | ifStatement condition ifBlock =>
    simp only [analyzeStatement, analyzeStatementTokens, List.length_append]
    rw [analyzeBlock_reports _ [] ifBlock, errorIf_reports _ _ _ .copied, analyzeExpression_reports]
    simp only [Nat.add_assoc]
  | ifElseStatement condition ifBlock elseBlock =>
    simp only [analyzeStatement, analyzeStatementTokens, List.length_append]
    rw [analyzeBlock_reports _ [] elseBlock, analyzeBlock_reports _ [] ifBlock, errorIf_reports _ _ _ .copied,
      analyzeExpression_reports]
    simp only [Nat.add_assoc]
  | forStatement initial condition update block =>
    simp only [analyzeStatement, analyzeStatementTokens, List.length_append, leaveLoop]
    rw [analyzeBlock_reports _ [] block, analyzeForUpdate_reports, errorIf_reports _ _ _ .copied,
      analyzeExpression_reports, analyzeAssignment_reports _ initial.location.initialToken]
    simp only [Nat.add_assoc, enterLoop]
  | whileStatement condition block =>
    simp only [analyzeStatement, analyzeStatementTokens, List.length_append, leaveLoop]
    rw [analyzeBlock_reports _ [] block, errorIf_reports _ _ _ .copied, analyzeExpression_reports]
    simp only [Nat.add_assoc, enterLoop]
  | returnStatement expression => exact analyzeReturnStatement_reports s expression
  | continueStatement => exact s.errorIf_reports _ _ _
  | breakStatement => exact s.errorIf_reports _ _ _

private theorem analyzeBlock_reports (s : Semantics) (initialFields : List IrField) (block : IrBlock) :
    (analyzeBlock s initialFields block).2.reports.length =
      s.reports.length + (analyzeBlockTokens s initialFields block).length := by
  cases block with
  | mk fields statements =>
    simp only [analyzeBlock, analyzeBlockTokens, List.length_append, popScope]
    rw [analyzeStatements_reports _ statements, analyzeFields_reports _ .copied, analyzeFields_reports _ .unassigned]
    simp only [Nat.add_assoc, pushScope]

private theorem analyzeStatements_reports (s : Semantics) (statements : IrStatements) :
    (analyzeStatements s statements).2.reports.length =
      s.reports.length + (analyzeStatementsTokens s statements).length := by
  cases statements with
  | nil => rfl
  | cons statement rest =>
    simp only [analyzeStatements, analyzeStatementsTokens, List.length_append]
    rw [analyzeStatements_reports _ rest, analyzeStatement_reports s statement, Nat.add_assoc]

end

private theorem analyzeMethods_reports (s : Semantics) (methods : List IrMethod) :
    (analyzeMethods s methods).2.reports.length = s.reports.length + (analyzeMethodsTokens s methods).length := by
  induction methods generalizing s with
  | nil => rfl
  | cons method rest ih =>
    simp only [analyzeMethods, analyzeMethodsTokens, analyzeMethodTokens, List.length_append]
    rw [ih, analyzeMethod, analyzeBlock_reports, declareMethod_reports]
    simp only [Nat.add_assoc]

private theorem declareMethods_reports (s : Semantics) (methods : List IrMethod) :
    (methods.foldl declareMethod s).reports.length = s.reports.length + (declareMethodsTokens s methods).length := by
  induction methods generalizing s with
  | nil => rfl
  | cons method rest ih =>
    rw [List.foldl_cons, ih, declareMethod_reports, declareMethodsTokens, List.length_append, Nat.add_assoc]

private theorem checkMain_reports (s : Semantics) :
    (checkMain s).reports.length = s.reports.length + (checkMainTokens s).length := by
  unfold checkMain checkMainTokens
  cases s.methodsTableGet "main" with
  | none => simp [semanticError]
  | some method =>
    dsimp only [reportIf, errorIf]
    split_ifs <;> simp_all [semanticError]

/-- The tokens are those of the reports that the checker prints, one for each. -/
private theorem analyzeProgram_reports (s : Semantics) (program : IrProgram) :
    (analyzeProgram s program).2.reports.length = s.reports.length + (analyzeProgramTokens s program).length := by
  simp only [analyzeProgram, analyzeProgramTokens, popScope, List.length_append]
  rw [checkMain_reports, analyzeMethods_reports, analyzeFields_reports _ .copied, declareMethods_reports]
  simp only [Nat.add_assoc, pushScope]

end Roast
