import Roast.Semantics.ReportTokens
import Roast.Semantics.Source

/-! When no report reads a token that was never assigned. The condition is stated on the program alone: distinct
parameters, calls that match the methods they resolve to, and declared variables in `for` statements. -/
namespace Roast
open Semantics

namespace Context

def callee (c : Context) (identifier : String) : Option IrMethod :=
  if (c.field identifier).isSome then none else c.method identifier

end Context

def IrLocation.typeIn (c : Context) : IrLocation → IrDataType
  | .scalar _ identifier => ((c.field identifier).map IrField.type).getD .void
  | .element _ identifier _ => ((c.field identifier).map fun field => field.type.element).getD .void

/-- The type of an expression, read off its outermost node. -/
def IrExpression.typeIn (c : Context) : IrExpression → IrDataType
  | .binary operator _ _ => operator.resultType
  | .not _ => .bool
  | .negate _ | .len _ _ => .int
  | .methodCall identifier _ => ((c.callee identifier).map IrMethod.returnType).getD .void
  | .literal value => value.type.dataType
  | .location place => place.typeIn c

def IrArguments.Pass (c : Context) : List IrField → IrArguments → Prop
  | _, .nil => True
  | _, .string _ _ => False
  | fields, .expression first rest =>
    fields.head?.map IrField.type = some (first.typeIn c) ∧ rest.Pass c fields.tail

mutual

def IrExpression.CallsMatch (c : Context) : IrExpression → Prop
  | .binary _ left right => left.CallsMatch c ∧ right.CallsMatch c
  | .not expression | .negate expression => expression.CallsMatch c
  | .len _ _ | .literal _ => True
  | .methodCall identifier arguments => ∀ method, c.callee identifier = some method →
    (method.imported = true → arguments.CallsMatch c) ∧
      (method.imported = false → method.arguments.length = arguments.length →
        arguments.CallsMatch c ∧ arguments.Pass c method.arguments)
  | .location location => location.CallsMatch c

def IrLocation.CallsMatch (c : Context) : IrLocation → Prop
  | .scalar _ _ => True
  | .element _ identifier index => (c.field identifier).isSome → index.CallsMatch c

def IrArguments.CallsMatch (c : Context) : IrArguments → Prop
  | .nil => True
  | .string _ rest => rest.CallsMatch c
  | .expression expression rest => expression.CallsMatch c ∧ rest.CallsMatch c

end

def IrAssignment.CallsMatch (c : Context) (assignment : IrAssignment) : Prop :=
  assignment.location.CallsMatch c ∧ ∀ expression ∈ assignment.expression, expression.CallsMatch c

def IrForUpdate.CallsMatch (c : Context) : IrForUpdate → Prop
  | .methodCall identifier arguments => (IrExpression.methodCall identifier arguments).CallsMatch c
  | .assignment update => update.CallsMatch c

def IrLocation.InitialDeclared (c : Context) : IrLocation → Prop
  | .scalar _ identifier => (c.field identifier).isSome
  | .element _ _ _ => True

mutual

def IrStatement.TokensAssigned (c : Context) : IrStatement → Prop
  | .assignment assignment => assignment.CallsMatch c
  | .methodCall identifier arguments => (IrExpression.methodCall identifier arguments).CallsMatch c
  | .ifStatement condition ifBlock => condition.CallsMatch c ∧ ifBlock.TokensAssigned c []
  | .ifElseStatement condition ifBlock elseBlock =>
    condition.CallsMatch c ∧ ifBlock.TokensAssigned c [] ∧ elseBlock.TokensAssigned c []
  | .forStatement initial condition update block =>
    initial.location.InitialDeclared c ∧ initial.CallsMatch c ∧ condition.CallsMatch c ∧ update.CallsMatch c ∧
      block.TokensAssigned c []
  | .whileStatement condition block => condition.CallsMatch c ∧ block.TokensAssigned c []
  | .returnStatement expression => ∀ returned ∈ expression, returned.CallsMatch c
  | .breakStatement | .continueStatement => True

def IrBlock.TokensAssigned (c : Context) (initial : List IrField) : IrBlock → Prop
  | .mk fields statements => (initial.map IrField.identifier).Nodup ∧
    statements.TokensAssigned (c.enter ((initial ++ fields).map IrField.analyzed))

def IrStatements.TokensAssigned (c : Context) : IrStatements → Prop
  | .nil => True
  | .cons statement rest => statement.TokensAssigned c ∧ rest.TokensAssigned c

end

def methodsTokensAssigned (c : Context) : List IrMethod → Prop
  | [] => True
  | method :: rest => method.block.TokensAssigned { c with methods := c.methods ++ [method] } method.arguments ∧
    methodsTokensAssigned { c with methods := c.methods ++ [method] } rest

/-- An import keeps its name from a global field. -/
def IrProgram.globals (program : IrProgram) : List IrField :=
  (program.fields.filter fun field => field.identifier ∉ program.imports.map IrMethod.identifier).map IrField.analyzed

/-- Parameters of a method have different names, a call of a declared method with the right number of arguments passes
expressions of the parameters' types, and the variable of a `for` statement is declared. -/
def IrProgram.TokensAssigned (program : IrProgram) : Prop :=
  methodsTokensAssigned ⟨[program.globals], program.imports⟩ program.methods

/-- Every report reads a token that was copied from the syntax tree. -/
def AllCopied (tokens : List ReportToken) : Prop := ∀ token ∈ tokens, token = .copied

@[simp] theorem allCopied_nil : AllCopied [] := by
  intro token mem
  cases mem

@[simp] theorem allCopied_append {tokens tokens' : List ReportToken} :
    AllCopied (tokens ++ tokens') ↔ AllCopied tokens ∧ AllCopied tokens' := List.forall_mem_append

@[simp] theorem allCopied_cons {token : ReportToken} {tokens : List ReportToken} :
    AllCopied (token :: tokens) ↔ token = .copied ∧ AllCopied tokens := List.forall_mem_cons

@[simp] theorem allCopied_reportIf (condition : Prop) [Decidable condition] (token : ReportToken) :
    AllCopied (reportIf condition token) ↔ (condition → token = .copied) := by
  unfold reportIf
  split <;> simp_all

structure Semantics.Agrees (s : Semantics) (c : Context) : Prop where
  field : s.context.field = c.field
  callee : s.context.callee = c.callee

namespace Semantics.Agrees
variable {s s' : Semantics} {c : Context}

private theorem sameScopes (agrees : s.Agrees c) (same : s.SameScopes s') : s'.Agrees c := by
  have equal := same.context
  exact ⟨by rw [equal, agrees.field], by rw [equal, agrees.callee]⟩

theorem getFieldDeclaration (agrees : s.Agrees c) (identifier : String) :
    (s.getFieldDeclaration identifier).1 = c.field identifier := congrFun agrees.field identifier

theorem getMethodDeclaration (agrees : s.Agrees c) (identifier : String) :
    (s.getMethodDeclaration identifier).1 = c.callee identifier := by
  rw [← agrees.callee, Context.callee, context_field, Semantics.getMethodDeclaration]
  split
  · rfl
  · rfl

end Semantics.Agrees

section
variable {c : Context}

private theorem analyzeMethodCallWith_type {s : Semantics} (agrees : s.Agrees c) (identifier : String)
    (arguments : IrArguments)
    (imported : Semantics → IrArguments × Semantics) (regular : List IrField → Semantics → IrArguments × Semantics) :
    (analyzeMethodCallWith s identifier arguments imported regular).type =
      ((c.callee identifier).map IrMethod.returnType).getD .void := by
  rw [analyzeMethodCallWith, agrees.getMethodDeclaration]
  cases c.callee identifier with
  | none => rfl
  | some method =>
    dsimp only
    split_ifs <;> rfl

private theorem analyzeLocation_type {s : Semantics} (agrees : s.Agrees c) (location : IrLocation) :
    (analyzeLocation s location).1.type = location.typeIn c := by
  cases location with
  | scalar node identifier =>
    rw [analyzeLocation, IrLocation.typeIn, agrees.getFieldDeclaration]
    cases c.field identifier <;> rfl
  | element node identifier index =>
    rw [analyzeLocation, IrLocation.typeIn, agrees.getFieldDeclaration]
    cases c.field identifier <;> rfl

/-- The checker finds the type that the context gives. -/
private theorem analyzeExpression_type {s : Semantics} (agrees : s.Agrees c) (expression : IrExpression) :
    (analyzeExpression s expression).type = expression.typeIn c := by
  cases expression with
  | len identifier length =>
    rw [analyzeExpression, IrExpression.typeIn]
    cases (s.getFieldDeclaration identifier).1 with
    | none => rfl
    | some field =>
      dsimp only
      split <;> rfl
  | negate expression => rw [analyzeExpression, IrExpression.typeIn]
  | not expression => rw [analyzeExpression, IrExpression.typeIn]
  | literal literal => rw [analyzeExpression, IrExpression.typeIn, analyzeLiteral]
  | location location =>
    rw [analyzeExpression, IrExpression.typeIn]
    exact analyzeLocation_type agrees location
  | methodCall identifier arguments =>
    rw [analyzeExpression, IrExpression.typeIn]
    exact analyzeMethodCallWith_type agrees identifier arguments _ _
  | binary operator left right => rw [analyzeExpression, IrExpression.typeIn]

private theorem getFieldDeclarationTokens_allCopied {s : Semantics} (agrees : s.Agrees c) (identifier : String)
    (token : ReportToken) :
    AllCopied (s.getFieldDeclarationTokens identifier token) ↔ (c.field identifier = none → token = .copied) := by
  rw [← agrees.field]
  exact allCopied_reportIf _ _

private theorem getMethodDeclarationTokens_allCopied (s : Semantics) (identifier : String) :
    AllCopied (s.getMethodDeclarationTokens identifier) := (allCopied_reportIf _ _).mpr fun _ => rfl

private theorem checkBinaryOperandsTokens_allCopied (operator : IrBinaryOperator) (left right : IrDataType) :
    AllCopied (checkBinaryOperandsTokens operator left right) := by
  unfold checkBinaryOperandsTokens
  split_ifs <;> simp

private theorem analyzeMethodCallWithTokens_allCopied {s : Semantics} (agrees : s.Agrees c) (identifier : String)
    (arguments : IrArguments)
    {imported : Semantics → List ReportToken} {regular : List IrField → Semantics → List ReportToken}
    (hi : ∀ s : Semantics, s.Agrees c → (AllCopied (imported s) ↔ arguments.CallsMatch c))
    (hr : ∀ fields (s : Semantics), s.Agrees c →
      (AllCopied (regular fields s) ↔ arguments.CallsMatch c ∧ arguments.Pass c fields)) :
    AllCopied (analyzeMethodCallWithTokens s identifier arguments imported regular) ↔
      (IrExpression.methodCall identifier arguments).CallsMatch c := by
  have later := agrees.sameScopes ((SameScopes.refl s).getMethodDeclaration identifier)
  rw [analyzeMethodCallWithTokens, allCopied_append, agrees.getMethodDeclaration, IrExpression.CallsMatch,
    and_iff_right (getMethodDeclarationTokens_allCopied s identifier)]
  cases c.callee identifier with
  | none => simp
  | some method =>
    dsimp only
    simp only [Option.some.injEq, forall_eq']
    by_cases himported : method.imported
    · simp [himported, hi _ later]
    · by_cases count : method.arguments.length = arguments.length
      · simp [himported, count, hr _ _ later]
      · simp [himported, count]

mutual

/-- An expression copies the tokens of its reports exactly if its calls match. -/
private theorem analyzeExpressionTokens_allCopied {s : Semantics} (agrees : s.Agrees c) (expression : IrExpression) :
    AllCopied (analyzeExpressionTokens s expression) ↔ expression.CallsMatch c := by
  cases expression with
  | len identifier length =>
    rw [analyzeExpressionTokens, IrExpression.CallsMatch, allCopied_append]
    cases (s.getFieldDeclaration identifier).1 <;> simp [Semantics.getFieldDeclarationTokens]
  | negate expression =>
    rw [analyzeExpressionTokens, IrExpression.CallsMatch, allCopied_append,
      analyzeExpressionTokens_allCopied agrees expression]
    simp
  | not expression =>
    rw [analyzeExpressionTokens, IrExpression.CallsMatch, allCopied_append,
      analyzeExpressionTokens_allCopied agrees expression]
    simp
  | literal literal => simp [analyzeExpressionTokens, analyzeLiteralTokens, IrExpression.CallsMatch]
  | location location =>
    rw [analyzeExpressionTokens, IrExpression.CallsMatch, analyzeLocationTokens_allCopied agrees location]
  | methodCall identifier arguments =>
    rw [analyzeExpressionTokens, allCopied_append, allCopied_reportIf,
      analyzeMethodCallWithTokens_allCopied agrees identifier arguments
        (fun s agrees => analyzeImportedMethodCallArgumentsTokens_allCopied agrees arguments)
        (fun fields s agrees => analyzeMethodCallArgumentsTokens_allCopied agrees fields arguments)]
    simp
  | binary operator left right =>
    have later := agrees.sameScopes (analyzeExpression_sameScopes s left)
    rw [analyzeExpressionTokens, IrExpression.CallsMatch]
    simp only [allCopied_append]
    rw [analyzeExpressionTokens_allCopied agrees left, analyzeExpressionTokens_allCopied later right,
      and_iff_left (checkBinaryOperandsTokens_allCopied _ _ _)]

/-- A location copies the tokens of its reports exactly if its calls match. -/
private theorem analyzeLocationTokens_allCopied {s : Semantics} (agrees : s.Agrees c) (location : IrLocation) :
    AllCopied (analyzeLocationTokens s .copied location) ↔ location.CallsMatch c := by
  cases location with
  | scalar node identifier =>
    rw [analyzeLocationTokens, IrLocation.CallsMatch, getFieldDeclarationTokens_allCopied agrees]
    simp
  | element node identifier index =>
    rw [analyzeLocationTokens, IrLocation.CallsMatch]
    have found := agrees.getFieldDeclaration identifier
    simp only [allCopied_append, getFieldDeclarationTokens_allCopied agrees, implies_true, true_and]
    rw [found]
    cases c.field identifier with
    | none => simp
    | some field =>
      have later := agrees.sameScopes ((((SameScopes.refl s).getFieldDeclaration identifier).logLookup node field).errorIf
        (field.type.isArray = false) ("Cannot index into a non-array field '" ++ identifier ++ "'"))
      simp only [allCopied_append, allCopied_reportIf, implies_true, true_and, and_true, Option.isSome_some, true_imp_iff]
      exact analyzeExpressionTokens_allCopied later index

private theorem analyzeImportedMethodCallArgumentsTokens_allCopied {s : Semantics} (agrees : s.Agrees c)
    (arguments : IrArguments) :
    AllCopied (analyzeImportedMethodCallArgumentsTokens s arguments) ↔ arguments.CallsMatch c := by
  cases arguments with
  | nil => simp [analyzeImportedMethodCallArgumentsTokens, IrArguments.CallsMatch]
  | string string rest => exact analyzeImportedMethodCallArgumentsTokens_allCopied agrees rest
  | expression expression rest =>
    have later := agrees.sameScopes (analyzeExpression_sameScopes s expression)
    rw [analyzeImportedMethodCallArgumentsTokens, IrArguments.CallsMatch, allCopied_append,
      analyzeExpressionTokens_allCopied agrees expression, analyzeImportedMethodCallArgumentsTokens_allCopied later rest]

private theorem analyzeMethodCallArgumentsTokens_allCopied {s : Semantics} (agrees : s.Agrees c) (fields : List IrField)
    (arguments : IrArguments) :
    AllCopied (analyzeMethodCallArgumentsTokens s fields arguments) ↔
      arguments.CallsMatch c ∧ arguments.Pass c fields := by
  cases arguments with
  | nil => simp [analyzeMethodCallArgumentsTokens, IrArguments.CallsMatch, IrArguments.Pass]
  | string string rest => simp [analyzeMethodCallArgumentsTokens, IrArguments.Pass]
  | expression expression rest =>
    have later := agrees.sameScopes ((analyzeExpression_sameScopes s expression).errorIf
      (fields.head?.map IrField.type ≠ some (analyzeExpression s expression).type)
      "Incorrect type passed into method call")
    simp only [analyzeMethodCallArgumentsTokens, IrArguments.CallsMatch, IrArguments.Pass, allCopied_append,
      allCopied_reportIf]
    rw [analyzeExpressionTokens_allCopied agrees expression, analyzeMethodCallArgumentsTokens_allCopied later fields.tail rest,
      analyzeExpression_type agrees]
    simp only [reduceCtorEq, imp_false, not_not]
    tauto

end

private theorem analyzeMethodCallTokens_allCopied {s : Semantics} (agrees : s.Agrees c) (identifier : String)
    (arguments : IrArguments) : AllCopied (analyzeMethodCallTokens s identifier arguments) ↔
      (IrExpression.methodCall identifier arguments).CallsMatch c :=
  analyzeMethodCallWithTokens_allCopied agrees identifier arguments
    (fun _ agrees => analyzeImportedMethodCallArgumentsTokens_allCopied agrees arguments)
    (fun fields _ agrees => analyzeMethodCallArgumentsTokens_allCopied agrees fields arguments)

/-- The location that a `for` statement assigns first has no token unless it has an index. -/
private theorem analyzeLocationTokens_initial {s : Semantics} (agrees : s.Agrees c) (location : IrLocation) :
    AllCopied (analyzeLocationTokens s location.initialToken location) ↔
      location.InitialDeclared c ∧ location.CallsMatch c := by
  cases location with
  | scalar node identifier =>
    rw [IrLocation.initialToken, analyzeLocationTokens, getFieldDeclarationTokens_allCopied agrees,
      IrLocation.InitialDeclared, IrLocation.CallsMatch, and_true, Option.isSome_iff_ne_none]
    simp
  | element node identifier index =>
    rw [IrLocation.InitialDeclared, true_and]
    exact analyzeLocationTokens_allCopied agrees _

/-- An assignment copies the tokens of its reports exactly if those of its location are copied and its calls match. -/
private theorem analyzeAssignmentTokens_allCopied {s : Semantics} (agrees : s.Agrees c) (token : ReportToken)
    (assignment : IrAssignment) : AllCopied (analyzeAssignmentTokens s token assignment) ↔
      AllCopied (analyzeLocationTokens s token assignment.location) ∧
        ∀ expression ∈ assignment.expression, expression.CallsMatch c := by
  unfold analyzeAssignmentTokens
  dsimp only
  simp only [allCopied_append, allCopied_reportIf, implies_true, and_true]
  refine and_congr_right fun _ => ?_
  cases assignment.expression with
  | none => simp
  | some expression =>
    have later := agrees.sameScopes ((((analyzeLocation_sameScopes s assignment.location).errorIf
      (analyzeLocation s assignment.location).2
      ("Cannot assign to constant field '" ++ assignment.location.identifier ++ "'")).errorIf
      (analyzeLocation s assignment.location).1.type.isArray
      ("Cannot assign to array typed field '" ++ assignment.location.identifier ++ "'")).errorIf
      (assignment.assignOperator ≠ .set ∧ (analyzeLocation s assignment.location).1.type ≠ .int)
      "Arithmetic assignment cannot be applied to field that is not of type int")
    simp only [allCopied_append, allCopied_reportIf, implies_true, and_true, Option.mem_def, Option.some.injEq, forall_eq']
    exact analyzeExpressionTokens_allCopied later expression

private theorem analyzeForUpdateTokens_allCopied {s : Semantics} (agrees : s.Agrees c) (update : IrForUpdate) :
    AllCopied (analyzeForUpdateTokens s update) ↔ update.CallsMatch c := by
  cases update with
  | methodCall identifier arguments => exact analyzeMethodCallTokens_allCopied agrees identifier arguments
  | assignment assignment =>
    rw [analyzeForUpdateTokens, analyzeAssignmentTokens_allCopied agrees, analyzeLocationTokens_allCopied agrees]
    rfl

private theorem analyzeReturnStatementTokens_allCopied {s : Semantics} (agrees : s.Agrees c)
    (expression : Option IrExpression) :
    AllCopied (analyzeReturnStatementTokens s expression) ↔ ∀ returned ∈ expression, returned.CallsMatch c := by
  cases expression with
  | none => simp [analyzeReturnStatementTokens]
  | some expression =>
    rw [analyzeReturnStatementTokens, allCopied_append, analyzeExpressionTokens_allCopied agrees]
    simp

def Semantics.Finds (s : Semantics) (table : List IrField) (outer : List (List IrField)) : Prop :=
  ∃ current, s.fieldsTableStack = current :: outer ∧ ∀ identifier,
    current.find? (fun field => field.identifier == identifier) = table.find? (fun field => field.identifier == identifier)

namespace Semantics

theorem Agrees.method {s : Semantics} (agrees : s.Agrees c) {identifier : String}
    (unshadowed : c.field identifier = none) : s.methodsTableGet identifier = c.method identifier := by
  have callee := congrFun agrees.callee identifier
  have field := congrFun agrees.field identifier
  rw [Context.callee, Context.callee, field, unshadowed] at callee
  exact callee

private theorem Agrees.of_finds {s : Semantics} {table : List IrField} {outer : List (List IrField)}
    (finds : s.Finds table outer)
    (field : ∀ identifier, (Context.mk outer []).field identifier = c.field identifier)
    (method : ∀ identifier, c.field identifier = none → s.methodsTableGet identifier = c.method identifier) :
    s.Agrees (c.enter table) := by
  obtain ⟨current, stack, same⟩ := finds
  have fields : s.context.field = (c.enter table).field := by
    funext identifier
    have outside := field identifier
    simp only [Context.field, Context.enter, Semantics.context, stack, List.findSome?_cons, same] at outside ⊢
    rw [outside]
  refine ⟨fields, ?_⟩
  funext identifier
  rw [Context.callee, Context.callee, fields]
  split
  · rfl
  · rename_i unshadowed
    refine method identifier ?_
    simp only [Context.field, Context.enter, List.findSome?_cons] at unshadowed ⊢
    split at unshadowed
    · simp at unshadowed
    · simpa using unshadowed

theorem Agrees.enter {s s' : Semantics} (agrees : s.Agrees c) {table : List IrField}
    (finds : s'.Finds table s.fieldsTableStack) (methods : s'.methodsTable = s.methodsTable) :
    s'.Agrees (c.enter table) := by
  refine .of_finds finds (congrFun agrees.field) fun identifier unshadowed => ?_
  rw [← agrees.method unshadowed, methodsTableGet, methodsTableGet, methods]

namespace Finds
variable {s s' : Semantics} {table : List IrField} {outer : List (List IrField)}

private theorem sameScopes (finds : s.Finds table outer) (same : s.SameScopes s') : s'.Finds table outer := by
  obtain ⟨current, stack, equal⟩ := finds
  exact ⟨current, same.fieldsTableStack.trans stack, equal⟩

private theorem getLocal (finds : s.Finds table outer) (identifier : String) : s.fieldsTableGetLocal identifier =
    table.find? (fun field => field.identifier == identifier) := by
  obtain ⟨current, stack, equal⟩ := finds
  rw [fieldsTableGetLocal, stack]
  exact equal identifier

theorem length (finds : s.Finds table outer) : s.fieldsTableStack.length = 1 ↔ outer = [] := by
  obtain ⟨current, stack, -⟩ := finds
  simp [stack]

/-- A second declaration of a name is dropped, which does not change what is found. -/
theorem declareField (finds : s.Finds table outer) (field : IrField) :
    (s.declareField field).Finds
      (if outer = [] ∧ (s.methodsTableGet field.identifier).isSome then table else table ++ [field]) outer := by
  unfold Semantics.declareField
  simp only [finds.getLocal, finds.length]
  by_cases redeclared : (table.find? (fun other => other.identifier == field.identifier)).isSome
  · rw [if_pos redeclared]
    obtain ⟨current, stack, equal⟩ := finds
    refine ⟨current, stack, fun identifier => ?_⟩
    rw [equal]
    split
    · rfl
    · rw [List.find?_append]
      by_cases same : field.identifier = identifier
      · obtain ⟨other, found⟩ := Option.isSome_iff_exists.mp redeclared
        rw [← same, found]
        rfl
      · simp [same]
  · rw [if_neg redeclared]
    split
    · exact finds
    · obtain ⟨current, stack, equal⟩ := finds
      refine ⟨current ++ [field], by simp [fieldsTableAdd, stack], fun identifier => ?_⟩
      rw [List.find?_append, List.find?_append, equal]

theorem analyzeField (finds : s.Finds table outer) (field : IrField) :
    (Roast.analyzeField s field).Finds
      (if outer = [] ∧ (s.methodsTableGet field.identifier).isSome then table else table ++ [field.analyzed]) outer := by
  have declared := finds.declareField field.analyzed
  rw [IrField.analyzed_identifier] at declared
  exact declared.sameScopes (analyzeField_sameScopes s field)

theorem analyzeFields (finds : s.Finds table outer) (fields : List IrField) :
    (Roast.analyzeFields s fields).Finds (table ++ (fields.filter fun field =>
      ¬ (outer = [] ∧ (s.methodsTableGet field.identifier).isSome)).map IrField.analyzed) outer := by
  induction fields generalizing s table with
  | nil => simpa [Roast.analyzeFields] using finds
  | cons field rest ih =>
    have methods (identifier : String) : (Roast.analyzeField s field).methodsTableGet identifier =
        s.methodsTableGet identifier := by
      rw [methodsTableGet, methodsTableGet, (analyzeField_sameOutside s field).methodsTable]
    have unfolded : Roast.analyzeFields s (field :: rest) = Roast.analyzeFields (Roast.analyzeField s field) rest := rfl
    have later := ih (finds.analyzeField field)
    simp only [methods] at later
    rw [unfolded, List.filter_cons]
    split at later
    · rename_i hidden
      simpa [hidden] using later
    · rename_i shown
      simpa [shown] using later

/-- In a scope that has a parent all declarations are found. -/
private theorem analyzeFields_nested (finds : s.Finds table outer) (nested : outer ≠ []) (fields : List IrField) :
    (Roast.analyzeFields s fields).Finds (table ++ fields.map IrField.analyzed) outer := by
  have later := finds.analyzeFields fields
  simpa [nested] using later

end Finds
end Semantics

end

private theorem analyzeInitializerLiteralsTokens_allCopied (literals : List IrLiteral)
    (accumulated : IrDataType × Semantics) :
    AllCopied (analyzeInitializerLiteralsTokens accumulated literals) := by
  induction literals generalizing accumulated with
  | nil => exact allCopied_nil
  | cons literal rest ih =>
    rw [analyzeInitializerLiteralsTokens, allCopied_append]
    exact ⟨by simp [analyzeInitializerLiteralTokens, analyzeLiteralTokens], ih _⟩

/-- Declarations with copied tokens report copied tokens. -/
private theorem analyzeFieldsTokens_allCopied (fields : List IrField) (s : Semantics) :
    AllCopied (analyzeFieldsTokens s .copied fields) := by
  induction fields generalizing s with
  | nil => exact allCopied_nil
  | cons field rest ih =>
    rw [analyzeFieldsTokens, allCopied_append]
    refine ⟨?_, ih _⟩
    unfold analyzeFieldTokens
    simp only [declareFieldTokens, allCopied_append, allCopied_reportIf, implies_true, true_and]
    split
    · simp [analyzeInitializerLiteralsTokens_allCopied]
    · simp

def IrField.Parameter (field : IrField) : Prop :=
  field.type.isArray = false ∧ field.constant = false ∧ field.initializer = none

/-- Only a second declaration of its name is reported at a parameter. -/
private theorem analyzeFieldTokens_parameter {s : Semantics} {table : List IrField} {outer : List (List IrField)}
    (finds : s.Finds table outer) (nested : outer ≠ []) {field : IrField} (parameter : field.Parameter) :
    AllCopied (analyzeFieldTokens s .unassigned field) ↔ field.identifier ∉ table.map IrField.identifier := by
  obtain ⟨scalar, assignable, plain⟩ := parameter
  unfold analyzeFieldTokens
  rw [plain, allCopied_append]
  simp only [declareFieldTokens, allCopied_append, allCopied_reportIf, finds.getLocal, finds.length, nested, scalar,
    assignable, IrField.analyzed_identifier]
  simp

private theorem analyzeFieldsTokens_parameters {s : Semantics} {table : List IrField} {outer : List (List IrField)}
    (finds : s.Finds table outer) (nested : outer ≠ []) {fields : List IrField}
    (parameters : ∀ field ∈ fields, field.Parameter) : AllCopied (analyzeFieldsTokens s .unassigned fields) ↔
      (fields.map IrField.identifier).Nodup ∧ ∀ field ∈ fields, field.identifier ∉ table.map IrField.identifier := by
  induction fields generalizing s table with
  | nil => simp [analyzeFieldsTokens]
  | cons field rest ih =>
    have later : (analyzeField s field).Finds (table ++ [field.analyzed]) outer :=
      finds.analyzeFields_nested nested [field]
    rw [List.forall_mem_cons] at parameters
    rw [analyzeFieldsTokens, allCopied_append, analyzeFieldTokens_parameter finds nested parameters.1,
      ih later parameters.2]
    simp only [List.map_cons, List.map_nil, List.nodup_cons, List.map_append, List.mem_append, List.mem_singleton,
      IrField.analyzed_identifier, List.forall_mem_cons, not_or, List.mem_map, not_exists, not_and]
    constructor
    · rintro ⟨fresh, distinct, others⟩
      exact ⟨⟨fun other mem same => (others other mem).2 same, distinct⟩, fresh, fun other mem => (others other mem).1⟩
    · rintro ⟨⟨different, distinct⟩, fresh, others⟩
      exact ⟨fresh, distinct, fun other mem => ⟨others other mem, fun same => different other mem same⟩⟩

mutual

private theorem analyzeStatementTokens_allCopied {s : Semantics} {c : Context} (agrees : s.Agrees c)
    (nested : s.fieldsTableStack ≠ [])
    (statement : IrStatement) : AllCopied (analyzeStatementTokens s statement) ↔ statement.TokensAssigned c := by
  cases statement with
  | assignment assignment =>
    rw [analyzeStatementTokens, analyzeAssignmentTokens_allCopied agrees, analyzeLocationTokens_allCopied agrees,
      IrStatement.TokensAssigned]
    rfl
  | methodCall identifier arguments => exact analyzeMethodCallTokens_allCopied agrees identifier arguments
  | ifStatement condition ifBlock =>
    have scopes := (analyzeExpression_sameScopes s condition).errorIf
      ((analyzeExpression s condition).type ≠ .bool) "Condition expression in if statement must be of type bool"
    simp only [analyzeStatementTokens, IrStatement.TokensAssigned, allCopied_append, allCopied_reportIf, implies_true,
      and_true]
    rw [analyzeExpressionTokens_allCopied agrees,
      analyzeBlockTokens_allCopied (agrees.sameScopes scopes) (by rwa [scopes.fieldsTableStack]) (by simp) ifBlock]
  | ifElseStatement condition ifBlock elseBlock =>
    have scopes := (analyzeExpression_sameScopes s condition).errorIf
      ((analyzeExpression s condition).type ≠ .bool) "Condition expression in if statement must be of type bool"
    have later := scopes.trans (analyzeBlock_sameScopes _ [] ifBlock)
    simp only [analyzeStatementTokens, IrStatement.TokensAssigned, allCopied_append, allCopied_reportIf, implies_true,
      and_true, and_assoc]
    rw [analyzeExpressionTokens_allCopied agrees,
      analyzeBlockTokens_allCopied (agrees.sameScopes scopes) (by rwa [scopes.fieldsTableStack]) (by simp) ifBlock,
      analyzeBlockTokens_allCopied (agrees.sameScopes later) (by rwa [later.fieldsTableStack]) (by simp) elseBlock]
  | forStatement initial condition update block =>
    have entered : (enterLoop s).Agrees c := ⟨agrees.field, agrees.callee⟩
    have first := analyzeAssignment_sameScopes (enterLoop s) initial
    have scopes := (first.trans (analyzeExpression_sameScopes _ condition)).errorIf
      ((analyzeExpression (analyzeAssignment (enterLoop s) initial).2 condition).type ≠ .bool)
      "Condition expression in for statement must be of type bool"
    have later := scopes.trans (analyzeForUpdate_sameScopes _ update)
    simp only [analyzeStatementTokens, IrStatement.TokensAssigned, IrAssignment.CallsMatch, allCopied_append,
      allCopied_reportIf, implies_true, and_true]
    rw [analyzeAssignmentTokens_allCopied entered, analyzeLocationTokens_initial entered,
      analyzeExpressionTokens_allCopied (entered.sameScopes first),
      analyzeForUpdateTokens_allCopied (entered.sameScopes scopes),
      analyzeBlockTokens_allCopied (entered.sameScopes later) (by rw [later.fieldsTableStack]; exact nested) (by simp)
        block]
    simp only [and_assoc]
  | whileStatement condition block =>
    have entered : (enterLoop s).Agrees c := ⟨agrees.field, agrees.callee⟩
    have scopes := (analyzeExpression_sameScopes (enterLoop s) condition).errorIf
      ((analyzeExpression (enterLoop s) condition).type ≠ .bool)
      "Condition expression in while statement must be of type bool"
    simp only [analyzeStatementTokens, IrStatement.TokensAssigned, allCopied_append, allCopied_reportIf, implies_true,
      and_true]
    rw [analyzeExpressionTokens_allCopied entered,
      analyzeBlockTokens_allCopied (entered.sameScopes scopes) (by rw [scopes.fieldsTableStack]; exact nested) (by simp)
        block]
  | returnStatement expression => exact analyzeReturnStatementTokens_allCopied agrees expression
  | continueStatement => simp [analyzeStatementTokens, IrStatement.TokensAssigned]
  | breakStatement => simp [analyzeStatementTokens, IrStatement.TokensAssigned]

private theorem analyzeBlockTokens_allCopied {s : Semantics} {c : Context} (agrees : s.Agrees c)
    (nested : s.fieldsTableStack ≠ [])
    {initial : List IrField} (parameters : ∀ field ∈ initial, field.Parameter) (block : IrBlock) :
    AllCopied (analyzeBlockTokens s initial block) ↔ block.TokensAssigned c initial := by
  cases block with
  | mk fields statements =>
    have pushed : (s.pushScope []).Finds [] s.fieldsTableStack := ⟨[], rfl, fun _ => rfl⟩
    have declared := (pushed.analyzeFields_nested nested initial).analyzeFields_nested nested fields
    rw [List.nil_append, ← List.map_append] at declared
    have outside := (analyzeFields_sameOutside (s.pushScope []) initial).trans (analyzeFields_sameOutside _ fields)
    have inner := agrees.enter declared outside.methodsTable
    rw [analyzeBlockTokens, IrBlock.TokensAssigned]
    simp only [allCopied_append]
    rw [analyzeFieldsTokens_parameters pushed nested parameters, and_iff_left (analyzeFieldsTokens_allCopied fields _),
      analyzeStatementsTokens_allCopied inner (blockFields_nested initial fields nested) statements]
    simp

private theorem analyzeStatementsTokens_allCopied {s : Semantics} {c : Context} (agrees : s.Agrees c)
    (nested : s.fieldsTableStack ≠ [])
    (statements : IrStatements) : AllCopied (analyzeStatementsTokens s statements) ↔ statements.TokensAssigned c := by
  cases statements with
  | nil => simp [analyzeStatementsTokens, IrStatements.TokensAssigned]
  | cons statement rest =>
    have scopes := analyzeStatement_sameScopes s statement
    rw [analyzeStatementsTokens, IrStatements.TokensAssigned, allCopied_append,
      analyzeStatementTokens_allCopied agrees nested statement,
      analyzeStatementsTokens_allCopied (agrees.sameScopes scopes) (by rwa [scopes.fieldsTableStack]) rest]

end

/-- A method is found after its declaration, unless a field or an earlier method of its name hides it. -/
private theorem declareMethod_methodsTableGet {s : Semantics} {identifier : String}
    (unshadowed : s.fieldsTableGet identifier = none)
    (method : IrMethod) : (s.declareMethod method).methodsTableGet identifier =
      (s.methodsTableGet identifier).or ([method].find? fun method => method.identifier == identifier) := by
  have hidden : s.fieldsTableGetLocal identifier = none := by
    unfold fieldsTableGet at unshadowed
    unfold fieldsTableGetLocal
    cases stack : s.fieldsTableStack with
    | nil => rfl
    | cons table parents =>
      rw [stack, List.findSome?_eq_none_iff] at unshadowed
      exact unshadowed table List.mem_cons_self
  unfold declareMethod
  by_cases same : method.identifier = identifier
  · subst same
    rw [hidden]
    cases found : s.methodsTableGet method.identifier with
    | none =>
      have missing : s.methodsTable.find? (fun other => other.identifier == method.identifier) = none := found
      simp [methodsTableGet, List.find?_append, missing]
    | some other => simpa [methodsTableGet, semanticError] using found
  · split_ifs <;> simp [methodsTableGet, semanticError, same]

/-- A declared method is found by both. -/
theorem Semantics.Agrees.declareMethod {s : Semantics} {c : Context} (agrees : s.Agrees c) (method : IrMethod) :
    (s.declareMethod method).Agrees { c with methods := c.methods ++ [method] } := by
  have fields : (s.declareMethod method).context.field = c.field := by
    rw [← agrees.field]
    funext identifier
    simp only [Context.field, context, declareMethod_fieldsTableStack]
  refine ⟨fields, ?_⟩
  funext identifier
  rw [Context.callee, Context.callee, fields]
  by_cases shadowed : (c.field identifier).isSome
  · rw [if_pos shadowed]
    exact (if_pos shadowed).symm
  · have unshadowed := Option.not_isSome_iff_eq_none.mp shadowed
    rw [if_neg shadowed]
    refine Eq.trans ?_ (if_neg shadowed).symm
    rw [context_method, declareMethod_methodsTableGet ((congrFun agrees.field identifier).trans unshadowed),
      agrees.method unshadowed]
    exact List.find?_append.symm

private theorem analyzeMethodsTokens_allCopied {s : Semantics} {c : Context} (agrees : s.Agrees c)
    (nested : s.fieldsTableStack ≠ []) {methods : List IrMethod}
    (parameters : ∀ method ∈ methods, ∀ field ∈ method.arguments, field.Parameter) :
    AllCopied (analyzeMethodsTokens s methods) ↔ methodsTokensAssigned c methods := by
  induction methods generalizing s c with
  | nil => simp [analyzeMethodsTokens, methodsTokensAssigned]
  | cons method rest ih =>
    rw [List.forall_mem_cons] at parameters
    have declared := agrees.declareMethod method
    have entered : Semantics.Agrees { s.declareMethod method with currentMethod := some method }
      { c with methods := c.methods ++ [method] } := ⟨declared.field, declared.callee⟩
    have stack : (s.declareMethod method).fieldsTableStack ≠ [] := by rwa [declareMethod_fieldsTableStack]
    have scopes := analyzeBlock_sameScopes { s.declareMethod method with currentMethod := some method } method.arguments
      method.block
    have later : (analyzeMethod s method).2.Agrees { c with methods := c.methods ++ [method] } :=
      entered.sameScopes scopes
    have laterStack : (analyzeMethod s method).2.fieldsTableStack = (s.declareMethod method).fieldsTableStack :=
      scopes.fieldsTableStack
    rw [analyzeMethodsTokens, methodsTokensAssigned, analyzeMethodTokens, allCopied_append, allCopied_append,
      analyzeBlockTokens_allCopied entered stack parameters.1 method.block,
      ih later (by rwa [laterStack]) parameters.2]
    simp [declareMethodTokens]

/-- The methods that are found once the imports are declared. -/
private theorem declareMethods_agrees {s : Semantics} {c : Context} (agrees : s.Agrees c) (methods : List IrMethod) :
    (methods.foldl declareMethod s).Agrees { c with methods := c.methods ++ methods } := by
  induction methods generalizing s c with
  | nil =>
    rw [List.append_nil]
    exact agrees
  | cons method rest ih =>
    have later := ih (agrees.declareMethod method)
    rw [List.append_assoc] at later
    exact later

/-- The scope of the globals and the imports. -/
private theorem globals_agrees (program : IrProgram) :
    (analyzeFields (program.imports.foldl declareMethod (semanticsNew.pushScope [])) program.fields).Agrees
      ⟨[program.globals], program.imports⟩ := by
  have start : (semanticsNew.pushScope []).Agrees ⟨[[]], []⟩ := ⟨rfl, rfl⟩
  have imported := declareMethods_agrees start program.imports
  have stack : (program.imports.foldl declareMethod (semanticsNew.pushScope [])).fieldsTableStack = [[]] :=
    declareMethods_fieldsTableStack program.imports
  have methods (identifier : String) :
      (program.imports.foldl declareMethod (semanticsNew.pushScope [])).methodsTableGet identifier =
        program.imports.find? (fun method => method.identifier == identifier) := imported.method rfl
  have same := (analyzeFields_sameOutside (program.imports.foldl declareMethod (semanticsNew.pushScope []))
    program.fields).methodsTable
  have finds : (program.imports.foldl declareMethod (semanticsNew.pushScope [])).Finds [] [] :=
    ⟨[], stack, fun _ => rfl⟩
  have declared := finds.analyzeFields program.fields
  simp only [methods, true_and, List.nil_append] at declared
  have shown : (program.fields.filter fun field => ¬ (program.imports.find? fun method =>
      method.identifier == field.identifier).isSome).map IrField.analyzed = program.globals := by
    simp [IrProgram.globals]
  rw [shown] at declared
  refine Agrees.of_finds (c := ⟨[], program.imports⟩) declared (fun _ => rfl) fun identifier _ => ?_
  rw [methodsTableGet, same]
  exact methods identifier

/-- A program copies the tokens of its reports exactly if its tokens are assigned. -/
private theorem analyzeProgramTokens_allCopied {program : IrProgram} (source : program.FromSource) :
    AllCopied (analyzeProgramTokens semanticsNew program) ↔ program.TokensAssigned := by
  have stack : (analyzeFields (program.imports.foldl declareMethod (semanticsNew.pushScope []))
      program.fields).fieldsTableStack ≠ [] := by
    have length := (analyzeFields_sameOutside (program.imports.foldl declareMethod (semanticsNew.pushScope []))
      program.fields).length
    rw [declareMethods_fieldsTableStack] at length
    exact List.ne_nil_of_length_pos (length ▸ Nat.zero_lt_one)
  have imports (methods : List IrMethod) (s : Semantics) : AllCopied (declareMethodsTokens s methods) := by
    induction methods generalizing s with
    | nil => exact allCopied_nil
    | cons method rest ih => exact allCopied_append.mpr ⟨(allCopied_reportIf _ _).mpr fun _ => rfl, ih _⟩
  have main (s : Semantics) : AllCopied (checkMainTokens s) := by
    unfold checkMainTokens
    split <;> simp
  rw [analyzeProgramTokens]
  simp only [allCopied_append]
  rw [and_iff_right (imports _ _), and_iff_right (analyzeFieldsTokens_allCopied _ _), and_iff_left (main _),
    analyzeMethodsTokens_allCopied (globals_agrees program) stack source.arguments]
  rfl

/-- The checker ends with 0 or -1 and prints each report at a position of the source. -/
def IrProgram.ReportsAssigned (program : IrProgram) : Prop :=
  ((semanticsAnalyze program).1 = 0 ∨ (semanticsAnalyze program).1 = -1) ∧
    AllCopied (analyzeProgramTokens semanticsNew program)

/-- The checker reports at an assigned position exactly when parameters have different names, calls match, and the
variables of `for` statements are declared. -/
theorem reportsAssigned_iff (program : IrProgram) (source : program.FromSource) :
    program.ReportsAssigned ↔ program.TokensAssigned := by
  have code : (semanticsAnalyze program).1 = 0 ∨ (semanticsAnalyze program).1 = -1 := by
    unfold semanticsAnalyze
    dsimp only
    split
    · exact .inr rfl
    · exact .inl rfl
  rw [IrProgram.ReportsAssigned, and_iff_right code, analyzeProgramTokens_allCopied source]

private def intParameter (node : Nat) (identifier : String) : IrField :=
  { node := node, type := .int, constant := false, identifier := identifier, arrayLength := 1, lengthToken := none,
    initializer := none }

private def voidMethod (identifier : String) (arguments : List IrField) : IrMethod :=
  { imported := false, returnType := .void, identifier := identifier, arguments := arguments, block := .mk [] .nil }

/-- `void f(int a, int a) { } void main() { }` -/
def repeatedParameter : IrProgram where
  imports := []
  fields := []
  methods := [voidMethod "f" [intParameter 0 "a", intParameter 1 "a"], voidMethod "main" []]

private theorem repeatedParameter_fromSource : repeatedParameter.FromSource := by decide +kernel

/-- The redeclaration of the second parameter is reported at a position that was never set. -/
theorem repeatedParameter_unassigned : repeatedParameter.FromSource ∧ ¬ repeatedParameter.ReportsAssigned := by
  refine ⟨repeatedParameter_fromSource, fun assigned => ?_⟩
  have unassigned : ReportToken.unassigned ∈ analyzeProgramTokens semanticsNew repeatedParameter := by decide +kernel
  have copied := assigned.2 _ unassigned
  cases copied

theorem reportsAssigned_iff_repeatedParameter :
    repeatedParameter.ReportsAssigned ↔ repeatedParameter.TokensAssigned :=
  reportsAssigned_iff repeatedParameter repeatedParameter_fromSource

end Roast
