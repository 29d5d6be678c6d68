import Roast.Semantics.TypeSystem

/-! What each function of the checker leaves untouched: expressions change only the error flag, the
reports and the lookups; statements and blocks restore the scope stack and the loop depth. -/
namespace Roast
namespace Semantics

/-- The part of the checker's state that decides how later constructs are judged. -/
structure SameScopes (s s' : Semantics) : Prop where
  fieldsTableStack : s'.fieldsTableStack = s.fieldsTableStack
  methodsTable : s'.methodsTable = s.methodsTable
  currentMethod : s'.currentMethod = s.currentMethod
  loopDepth : s'.loopDepth = s.loopDepth

def context (s : Semantics) : Context := ⟨s.fieldsTableStack, s.methodsTable⟩

@[simp] theorem context_field (s : Semantics) (identifier : String) :
    s.context.field identifier = s.fieldsTableGet identifier := rfl

@[simp] theorem context_method (s : Semantics) (identifier : String) :
    s.context.method identifier = s.methodsTableGet identifier := rfl

namespace SameScopes

@[refl] theorem refl (s : Semantics) : s.SameScopes s := ⟨rfl, rfl, rfl, rfl⟩

theorem trans {s₁ s₂ s₃ : Semantics} (h : s₁.SameScopes s₂) (h' : s₂.SameScopes s₃) : s₁.SameScopes s₃ :=
  ⟨h'.1.trans h.1, h'.2.trans h.2, h'.3.trans h.3, h'.4.trans h.4⟩

theorem context {s s' : Semantics} (h : s.SameScopes s') : s'.context = s.context := by
  simp only [Semantics.context, h.fieldsTableStack, h.methodsTable]

theorem semanticError {s s' : Semantics} (h : s.SameScopes s') (message : String) :
    s.SameScopes (s'.semanticError message) := ⟨h.1, h.2, h.3, h.4⟩

theorem errorIf {s s' : Semantics} (h : s.SameScopes s') (condition : Prop) [Decidable condition]
    (message : String) : s.SameScopes (s'.errorIf condition message) := by
  unfold Semantics.errorIf
  split
  · exact h.semanticError message
  · exact h

theorem logLookup {s s' : Semantics} (h : s.SameScopes s') (node : Nat) (field : IrField) :
    s.SameScopes (s'.logLookup node field) := ⟨h.1, h.2, h.3, h.4⟩

theorem getFieldDeclaration {s s' : Semantics} (h : s.SameScopes s') (identifier : String) :
    s.SameScopes (s'.getFieldDeclaration identifier).2 := h.errorIf _ _

theorem getMethodDeclaration {s s' : Semantics} (h : s.SameScopes s') (identifier : String) :
    s.SameScopes (s'.getMethodDeclaration identifier).2 := by
  unfold Semantics.getMethodDeclaration
  split
  · exact h.semanticError _
  · exact h.errorIf _ _

theorem analyzeMethodCallWith {s : Semantics} (identifier : String) (arguments : IrArguments)
    {imported : Semantics → IrArguments × Semantics}
    {regular : List IrField → Semantics → IrArguments × Semantics}
    (hi : ∀ s : Semantics, s.SameScopes (imported s).2)
    (hr : ∀ fields (s : Semantics), s.SameScopes (regular fields s).2) :
    s.SameScopes (Roast.analyzeMethodCallWith s identifier arguments imported regular).state := by
  have found := (refl s).getMethodDeclaration identifier
  unfold Roast.analyzeMethodCallWith
  dsimp only
  split
  · exact found
  · split
    · exact found.trans (hi _)
    · split
      · exact found.semanticError _
      · exact found.trans (hr _ _)

theorem checkBinaryOperands {s s' : Semantics} (h : s.SameScopes s') (operator : IrBinaryOperator)
    (leftType rightType : IrDataType) :
    s.SameScopes (Roast.checkBinaryOperands s' operator leftType rightType) := by
  unfold Roast.checkBinaryOperands
  split
  · exact h.errorIf _ _
  · split
    · exact h.errorIf _ _
    · exact (h.errorIf _ _).errorIf _ _

end SameScopes
end Semantics

open Semantics

mutual

theorem analyzeExpression_sameScopes (s : Semantics) (expression : IrExpression) :
    s.SameScopes (analyzeExpression s expression).state := by
  cases expression with
  | len identifier length =>
    have found := (SameScopes.refl s).getFieldDeclaration identifier
    simp only [analyzeExpression]
    split
    · exact found
    · split
      · exact found
      · exact found.semanticError _
  | negate expression => exact (analyzeExpression_sameScopes s expression).errorIf _ _
  | not expression => exact (analyzeExpression_sameScopes s expression).errorIf _ _
  | literal literal => exact (SameScopes.refl s).errorIf _ _
  | location location => exact analyzeLocation_sameScopes s location
  | methodCall identifier arguments =>
    exact (SameScopes.analyzeMethodCallWith identifier arguments
      (fun s => analyzeImportedMethodCallArguments_sameScopes s arguments)
      (fun fields s => analyzeMethodCallArguments_sameScopes s fields arguments)).errorIf _ _
  | binary operator left right =>
    exact ((analyzeExpression_sameScopes s left).trans
      (analyzeExpression_sameScopes _ right)).checkBinaryOperands _ _ _

theorem analyzeLocation_sameScopes (s : Semantics) (location : IrLocation) :
    s.SameScopes (analyzeLocation s location).1.state := by
  cases location with
  | scalar node identifier =>
    have found := (SameScopes.refl s).getFieldDeclaration identifier
    simp only [analyzeLocation]
    split
    · exact found
    · exact found.logLookup _ _
  | element node identifier index =>
    have found := (SameScopes.refl s).getFieldDeclaration identifier
    simp only [analyzeLocation]
    split
    · exact found
    · exact (((found.logLookup _ _).errorIf _ _).trans (analyzeExpression_sameScopes _ index)).errorIf _ _

private theorem analyzeImportedMethodCallArguments_sameScopes (s : Semantics) (arguments : IrArguments) :
    s.SameScopes (analyzeImportedMethodCallArguments s arguments).2 := by
  cases arguments with
  | nil => exact .refl s
  | string string rest => exact analyzeImportedMethodCallArguments_sameScopes s rest
  | expression expression rest =>
    exact (analyzeExpression_sameScopes s expression).trans
      (analyzeImportedMethodCallArguments_sameScopes _ rest)

private theorem analyzeMethodCallArguments_sameScopes (s : Semantics) (fields : List IrField)
    (arguments : IrArguments) : s.SameScopes (analyzeMethodCallArguments s fields arguments).2 := by
  cases arguments with
  | nil => exact .refl s
  | string string rest =>
    exact ((SameScopes.refl s).semanticError _).trans
      (analyzeMethodCallArguments_sameScopes _ fields.tail rest)
  | expression expression rest =>
    exact ((analyzeExpression_sameScopes s expression).errorIf _ _).trans
      (analyzeMethodCallArguments_sameScopes _ fields.tail rest)

end

private theorem analyzeMethodCall_sameScopes (s : Semantics) (identifier : String) (arguments : IrArguments) :
    s.SameScopes (analyzeMethodCall s identifier arguments).state :=
  SameScopes.analyzeMethodCallWith identifier arguments
    (fun s => analyzeImportedMethodCallArguments_sameScopes s arguments)
    (fun fields s => analyzeMethodCallArguments_sameScopes s fields arguments)

theorem analyzeAssignment_sameScopes (s : Semantics) (assignment : IrAssignment) :
    s.SameScopes (analyzeAssignment s assignment).2 := by
  have location := (((analyzeLocation_sameScopes s assignment.location).errorIf
    (analyzeLocation s assignment.location).2
    ("Cannot assign to constant field '" ++ assignment.location.identifier ++ "'")).errorIf
    (analyzeLocation s assignment.location).1.type.isArray
    ("Cannot assign to array typed field '" ++ assignment.location.identifier ++ "'")).errorIf
    (assignment.assignOperator ≠ .set ∧ (analyzeLocation s assignment.location).1.type ≠ .int)
    "Arithmetic assignment cannot be applied to field that is not of type int"
  unfold analyzeAssignment
  dsimp only
  split
  · exact location
  · exact (location.trans (analyzeExpression_sameScopes _ _)).errorIf _ _

theorem analyzeForUpdate_sameScopes (s : Semantics) (update : IrForUpdate) :
    s.SameScopes (analyzeForUpdate s update).2 := by
  cases update with
  | methodCall identifier arguments => exact analyzeMethodCall_sameScopes s identifier arguments
  | assignment assignment => exact analyzeAssignment_sameScopes s assignment

private theorem analyzeReturnStatement_sameScopes (s : Semantics) (expression : Option IrExpression) :
    s.SameScopes (analyzeReturnStatement s expression).2 := by
  cases expression with
  | none => exact (SameScopes.refl s).errorIf _ _
  | some expression => exact (analyzeExpression_sameScopes s expression).errorIf _ _

structure Semantics.SameOutside (s s' : Semantics) : Prop where
  tail : s'.fieldsTableStack.tail = s.fieldsTableStack.tail
  methodsTable : s'.methodsTable = s.methodsTable
  currentMethod : s'.currentMethod = s.currentMethod
  loopDepth : s'.loopDepth = s.loopDepth
  length : s'.fieldsTableStack.length = s.fieldsTableStack.length

namespace Semantics.SameOutside

theorem refl (s : Semantics) : s.SameOutside s := ⟨rfl, rfl, rfl, rfl, rfl⟩

theorem trans {s₁ s₂ s₃ : Semantics} (h : s₁.SameOutside s₂) (h' : s₂.SameOutside s₃) :
    s₁.SameOutside s₃ := 
  ⟨h'.1.trans h.1, h'.2.trans h.2, h'.3.trans h.3, h'.4.trans h.4, h'.5.trans h.5⟩

private theorem of_sameScopes {s s' : Semantics} (h : s.SameScopes s') : s.SameOutside s' :=
  ⟨by rw [h.fieldsTableStack], h.2, h.3, h.4, by rw [h.fieldsTableStack]⟩

theorem semanticError {s s' : Semantics} (h : s.SameOutside s') (message : String) :
    s.SameOutside (s'.semanticError message) := ⟨h.1, h.2, h.3, h.4, h.5⟩

theorem declareField (s : Semantics) (field : IrField) : s.SameOutside (s.declareField field) := by
  unfold Semantics.declareField
  split
  · exact (refl s).semanticError _
  · split
    · exact (refl s).semanticError _
    · refine ⟨?_, rfl, rfl, rfl, ?_⟩ <;> cases h : s.fieldsTableStack <;> simp [fieldsTableAdd, h]

end Semantics.SameOutside

private theorem analyzeInitializerLiteral_sameScopes (accumulated : IrDataType × Semantics) (literal : IrLiteral) :
    accumulated.2.SameScopes (analyzeInitializerLiteral accumulated literal).2 := by
  have literalScopes : accumulated.2.SameScopes (analyzeLiteral accumulated.2 literal).2 :=
    (SameScopes.refl _).errorIf _ _
  unfold analyzeInitializerLiteral
  dsimp only
  split
  · exact literalScopes
  · exact literalScopes.errorIf _ _

private theorem foldl_analyzeInitializerLiteral_sameScopes (literals : List IrLiteral)
    (accumulated : IrDataType × Semantics) :
    accumulated.2.SameScopes (literals.foldl analyzeInitializerLiteral accumulated).2 := by
  induction literals generalizing accumulated with
  | nil => exact .refl _
  | cons literal rest ih =>
    exact (analyzeInitializerLiteral_sameScopes accumulated literal).trans (ih _)

/-- After the declaration of a field only its initializer is checked. -/
theorem analyzeField_sameScopes (s : Semantics) (field : IrField) :
    (s.declareField field.analyzed).SameScopes (analyzeField s field) := by
  unfold analyzeField
  dsimp only
  split
  · refine SameScopes.errorIf (SameScopes.errorIf ?_ _ _) _ _
    exact foldl_analyzeInitializerLiteral_sameScopes _ (.void, s.declareField field.analyzed)
  · refine SameScopes.errorIf ?_ _ _
    split
    · exact (SameScopes.refl _).semanticError _
    · exact (SameScopes.refl _).errorIf _ _

theorem analyzeField_sameOutside (s : Semantics) (field : IrField) :
    s.SameOutside (analyzeField s field) :=
  (SameOutside.declareField s field.analyzed).trans (.of_sameScopes (analyzeField_sameScopes s field))

theorem analyzeFields_sameOutside (s : Semantics) (fields : List IrField) :
    s.SameOutside (analyzeFields s fields) := by
  unfold analyzeFields
  induction fields generalizing s with
  | nil => exact .refl s
  | cons field rest ih => exact (analyzeField_sameOutside s field).trans (ih _)

private theorem leaveLoop_sameScopes {s s' : Semantics} (h : (enterLoop s).SameScopes s') :
    s.SameScopes (leaveLoop s') :=
  ⟨h.1, h.2, h.3, by simp only [leaveLoop, h.loopDepth, enterLoop]; omega⟩

mutual

theorem analyzeStatement_sameScopes (s : Semantics) (statement : IrStatement) :
    s.SameScopes (analyzeStatement s statement).2 := by
  cases statement with
  | assignment assignment => exact analyzeAssignment_sameScopes s assignment
  | methodCall identifier arguments => exact analyzeMethodCall_sameScopes s identifier arguments
  | ifStatement condition ifBlock =>
    exact ((analyzeExpression_sameScopes s condition).errorIf _ _).trans (analyzeBlock_sameScopes _ [] ifBlock)
  | ifElseStatement condition ifBlock elseBlock =>
    exact (((analyzeExpression_sameScopes s condition).errorIf _ _).trans
      (analyzeBlock_sameScopes _ [] ifBlock)).trans (analyzeBlock_sameScopes _ [] elseBlock)
  | forStatement initial condition update block =>
    exact leaveLoop_sameScopes (((((analyzeAssignment_sameScopes _ initial).trans
      (analyzeExpression_sameScopes _ condition)).errorIf _ _).trans
      (analyzeForUpdate_sameScopes _ update)).trans (analyzeBlock_sameScopes _ [] block))
  | whileStatement condition block =>
    exact leaveLoop_sameScopes (((analyzeExpression_sameScopes _ condition).errorIf _ _).trans
      (analyzeBlock_sameScopes _ [] block))
  | returnStatement expression => exact analyzeReturnStatement_sameScopes s expression
  | continueStatement => exact (SameScopes.refl s).errorIf _ _
  | breakStatement => exact (SameScopes.refl s).errorIf _ _

theorem analyzeBlock_sameScopes (s : Semantics) (initialFields : List IrField) (block : IrBlock) :
    s.SameScopes (analyzeBlock s initialFields block).2 := by
  cases block with
  | mk fields statements =>
    have declared := (analyzeFields_sameOutside (s.pushScope []) initialFields).trans
      (analyzeFields_sameOutside _ fields)
    have inner := analyzeStatements_sameScopes
      (analyzeFields (analyzeFields (s.pushScope []) initialFields) fields) statements
    refine ⟨?_, inner.2.trans declared.2, inner.3.trans declared.3, inner.4.trans declared.4⟩
    exact (congrArg List.tail inner.1).trans declared.1

private theorem analyzeStatements_sameScopes (s : Semantics) (statements : IrStatements) :
    s.SameScopes (analyzeStatements s statements).2 := by
  cases statements with
  | nil => exact .refl s
  | cons statement rest =>
    exact (analyzeStatement_sameScopes s statement).trans (analyzeStatements_sameScopes _ rest)

end

end Roast
