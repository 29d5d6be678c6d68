import Roast.Semantics.CheckerScopes

/-! The checker decides the type system on expressions, locations and calls: an analysis that starts
without an error ends without one exactly when a typing derivation exists, and it returns that type. -/
namespace Roast
open Semantics

/-- The overflow marker is the only literal that `analyze_literal` rejects. -/
def IrLiteral.Accepted (literal : IrLiteral) : Prop :=
  ¬ (literal.type = .int ∧ literal.value = overflowMarker)

def IrInitializer.elementType (initializer : IrInitializer) : IrDataType :=
  (initializer.literals.head?.map (fun literal => literal.type.dataType)).getD .void

def IrField.Accepted (field : IrField) : Prop :=
  match field.initializer with
  | some initializer =>
    (∀ literal ∈ initializer.literals,
      literal.Accepted ∧ literal.type.dataType = initializer.elementType) ∧
    (if initializer.array then initializer.elementType.array else initializer.elementType) = field.type ∧
    ¬ (field.type.isArray ∧ initializer.array ∧ field.arrayLength ≠ -1)
  | none =>
    ¬ (field.type.isArray ∧ field.arrayLength = -1) ∧ ¬ (field.type.isArray ∧ field.arrayLength = 0) ∧
    field.constant = false

/-- The type system with exactly the tests of the checker on literals and fields. -/
def checkerRules : Rules where
  literal := IrLiteral.Accepted
  field := IrField.Accepted

namespace Semantics

@[simp] theorem semanticError_error (s : Semantics) (message : String) :
    (s.semanticError message).error = true := rfl

@[simp] theorem errorIf_error (s : Semantics) (condition : Prop) [Decidable condition] (message : String) :
    (s.errorIf condition message).error = false ↔ s.error = false ∧ ¬ condition := by
  unfold errorIf
  split <;> simp_all

end Semantics

/-- The operator table, read off the classes that the checker distinguishes. -/
private theorem operatorTyped_iff (operator : IrBinaryOperator) (operand result : IrDataType) :
    OperatorTyped operator operand result ↔ result = operator.resultType ∧
      (operator.takesInts = true ∧ operand = .int ∨
        operator.takesInts = false ∧ operator.takesBools = true ∧ operand = .bool ∨
        operator.takesInts = false ∧ operator.takesBools = false ∧ operand.isArray = false) := by
  constructor
  · intro h
    cases h with
    | arithmetic h | order h | logical h => revert h; revert operator; decide
    | equality h scalar =>
      simp only [List.mem_cons, List.not_mem_nil, or_false] at h
      rcases h with h | h <;> subst h <;> exact ⟨rfl, .inr (.inr ⟨rfl, rfl, scalar⟩)⟩
  · rintro ⟨rfl, ⟨ints, rfl⟩ | ⟨ints, bools, rfl⟩ | ⟨ints, bools, scalar⟩⟩ <;> cases operator <;>
      first
      | refine .arithmetic ?_; decide
      | refine .order ?_; decide
      | refine .logical ?_; decide
      | refine .equality ?_ scalar; decide
      | exact absurd ints (by decide)
      | exact absurd bools (by decide)

/-- The operand tests of the checker are the operator table. -/
private theorem checkBinaryOperands_error (s : Semantics) (operator : IrBinaryOperator)
    (left right : IrDataType) : (checkBinaryOperands s operator left right).error = false ↔
      s.error = false ∧ left = right ∧ OperatorTyped operator left operator.resultType := by
  rw [operatorTyped_iff]
  unfold checkBinaryOperands
  cases ints : operator.takesInts <;> cases bools : operator.takesBools <;>
    simp only [Bool.false_eq_true, if_true, if_false, errorIf_error] <;> grind

private theorem getFieldDeclaration_error (s : Semantics) (identifier : String) :
    (s.getFieldDeclaration identifier).2.error = false ↔
      s.error = false ∧ s.fieldsTableGet identifier ≠ none := errorIf_error _ _ _

/-- A method is found where no field hides it. -/
private theorem getMethodDeclaration_error (s : Semantics) (identifier : String) :
    (s.getMethodDeclaration identifier).2.error = false ↔ s.error = false ∧
      s.fieldsTableGet identifier = none ∧ s.methodsTableGet identifier ≠ none := by
  unfold getMethodDeclaration
  split
  · rename_i shadowed
    have : s.fieldsTableGet identifier ≠ none := by
      intro h
      simp [h] at shadowed
    simp [this]
  · rename_i unshadowed
    have : s.fieldsTableGet identifier = none := by simpa using unshadowed
    simp [this]

/-- Soundness of a call, given soundness of its two argument loops. -/
private theorem analyzeMethodCallWith_sound {s : Semantics} {identifier : String} {arguments : IrArguments}
    {imported : Semantics → IrArguments × Semantics}
    {regular : List IrField → Semantics → IrArguments × Semantics}
    (hi : ∀ s : Semantics, (imported s).2.error = false → s.error = false ∧
      ImportedArgumentsTyped checkerRules s.context arguments)
    (hr : ∀ fields (s : Semantics), fields.length = arguments.length → (regular fields s).2.error = false →
      s.error = false ∧ ArgumentsTyped checkerRules s.context fields arguments)
    (h : (analyzeMethodCallWith s identifier arguments imported regular).state.error = false) :
    s.error = false ∧ CallTyped checkerRules s.context identifier arguments
      (analyzeMethodCallWith s identifier arguments imported regular).type := by
  have scopes := ((SameScopes.refl s).getMethodDeclaration identifier).context
  have found := getMethodDeclaration_error s identifier
  have first : s.fieldsTableGet identifier = none →
      (s.getMethodDeclaration identifier).1 = s.methodsTableGet identifier := by
    intro hn
    simp [getMethodDeclaration, hn]
  unfold analyzeMethodCallWith at h ⊢
  dsimp only at h ⊢
  split at h
  · rename_i none
    obtain ⟨he, hn, hm⟩ := found.mp h
    exact absurd ((first hn).symm.trans none) hm
  · rename_i method hmethod
    split at h
    · rename_i himported
      obtain ⟨h, ha⟩ := hi _ h
      obtain ⟨he, hn, hm⟩ := found.mp h
      simp only [himported, if_true]
      exact ⟨he, .imported hn ((first hn).symm.trans hmethod) himported (scopes ▸ ha)⟩
    · rename_i hdeclared
      split at h
      · simp at h
      · rename_i hlength
        obtain ⟨h, ha⟩ := hr _ _ (by simpa using hlength) h
        obtain ⟨he, hn, hm⟩ := found.mp h
        simp only [hdeclared, hlength]
        exact ⟨he, .declared hn ((first hn).symm.trans hmethod) (by simpa using hdeclared) (scopes ▸ ha)⟩

mutual

/-- An expression that is accepted is typed. -/
theorem analyzeExpression_sound (s : Semantics) (expression : IrExpression)
    (h : (analyzeExpression s expression).state.error = false) :
    s.error = false ∧
      ExpressionTyped checkerRules s.context expression (analyzeExpression s expression).type := by
  cases expression with
  | len identifier length =>
    simp only [analyzeExpression] at h ⊢
    cases hf : (s.getFieldDeclaration identifier).1 with
    | none =>
      simp only [hf] at h
      exact absurd hf ((getFieldDeclaration_error s identifier).mp h).2
    | some field =>
      simp only [hf] at h ⊢
      split at h
      · rename_i array
        simp only [array, if_true]
        exact ⟨((getFieldDeclaration_error s identifier).mp h).1, .len hf array⟩
      · simp at h
  | negate expression =>
    simp only [analyzeExpression, errorIf_error, ne_eq, not_not] at h ⊢
    obtain ⟨he, ht⟩ := analyzeExpression_sound s expression h.1
    exact ⟨he, .negate (h.2 ▸ ht)⟩
  | not expression =>
    simp only [analyzeExpression, errorIf_error, ne_eq, not_not] at h ⊢
    obtain ⟨he, ht⟩ := analyzeExpression_sound s expression h.1
    exact ⟨he, .not (h.2 ▸ ht)⟩
  | literal literal =>
    simp only [analyzeExpression, analyzeLiteral, errorIf_error] at h ⊢
    exact ⟨h.1, .literal h.2⟩
  | location location =>
    obtain ⟨he, field, ht, _⟩ := analyzeLocation_sound s location h
    exact ⟨he, .location ht⟩
  | methodCall identifier arguments =>
    simp only [analyzeExpression, errorIf_error] at h ⊢
    obtain ⟨he, ht⟩ := analyzeMethodCallWith_sound
      (fun s => analyzeImportedMethodCallArguments_sound s arguments)
      (fun fields s => analyzeMethodCallArguments_sound s fields arguments) h.1
    exact ⟨he, .methodCall ht h.2⟩
  | binary operator left right =>
    simp only [analyzeExpression, checkBinaryOperands_error] at h ⊢
    obtain ⟨h, same, op⟩ := h
    obtain ⟨h, hr⟩ := analyzeExpression_sound _ right h
    obtain ⟨he, hl⟩ := analyzeExpression_sound s left h
    rw [(analyzeExpression_sameScopes s left).context] at hr
    exact ⟨he, .binary op hl (same ▸ hr)⟩

/-- A location that is accepted is typed. -/
theorem analyzeLocation_sound (s : Semantics) (location : IrLocation)
    (h : (analyzeLocation s location).1.state.error = false) :
    s.error = false ∧ ∃ field,
      LocationTyped checkerRules s.context location field (analyzeLocation s location).1.type ∧
      (analyzeLocation s location).2 = field.constant := by
  cases location with
  | scalar node identifier =>
    simp only [analyzeLocation] at h ⊢
    cases hf : (s.getFieldDeclaration identifier).1 with
    | none =>
      simp only [hf] at h
      exact absurd hf ((getFieldDeclaration_error s identifier).mp h).2
    | some field =>
      simp only [hf] at h ⊢
      exact ⟨((getFieldDeclaration_error s identifier).mp h).1, field, .scalar hf, rfl⟩
  | element node identifier index =>
    simp only [analyzeLocation] at h ⊢
    cases hf : (s.getFieldDeclaration identifier).1 with
    | none =>
      simp only [hf] at h
      exact absurd hf ((getFieldDeclaration_error s identifier).mp h).2
    | some field =>
      simp only [hf, errorIf_error, ne_eq, not_not] at h ⊢
      have scopes := ((((SameScopes.refl s).getFieldDeclaration identifier).logLookup node field).errorIf
        (field.type.isArray = false) ("Cannot index into a non-array field '" ++ identifier ++ "'")).context
      obtain ⟨he, hi⟩ := analyzeExpression_sound _ index h.1
      rw [h.2, scopes] at hi
      rw [errorIf_error] at he
      exact ⟨((getFieldDeclaration_error s identifier).mp he.1).1, field,
        .element hf (by simpa using he.2) hi, rfl⟩

/-- Arguments of an imported method that are accepted are typed. -/
private theorem analyzeImportedMethodCallArguments_sound (s : Semantics) (arguments : IrArguments)
    (h : (analyzeImportedMethodCallArguments s arguments).2.error = false) :
    s.error = false ∧ ImportedArgumentsTyped checkerRules s.context arguments := by
  cases arguments with
  | nil => exact ⟨h, .nil⟩
  | string string rest =>
    obtain ⟨he, ha⟩ := analyzeImportedMethodCallArguments_sound s rest h
    exact ⟨he, .string ha⟩
  | expression expression rest =>
    obtain ⟨h, ha⟩ := analyzeImportedMethodCallArguments_sound _ rest h
    obtain ⟨he, ht⟩ := analyzeExpression_sound s expression h
    exact ⟨he, .expression ht ((analyzeExpression_sameScopes s expression).context ▸ ha)⟩

/-- Arguments that are accepted fit the parameters. -/
private theorem analyzeMethodCallArguments_sound (s : Semantics) (fields : List IrField) (arguments : IrArguments)
    (length : fields.length = arguments.length)
    (h : (analyzeMethodCallArguments s fields arguments).2.error = false) :
    s.error = false ∧ ArgumentsTyped checkerRules s.context fields arguments := by
  cases arguments with
  | nil =>
    obtain rfl := List.length_eq_zero_iff.mp length
    exact ⟨h, .nil⟩
  | string string rest =>
    have := (analyzeMethodCallArguments_sound _ fields.tail rest
      (by simp [IrArguments.length] at length ⊢; omega) h).1
    simp at this
  | expression expression rest =>
    cases fields with
    | nil => simp [IrArguments.length] at length
    | cons field fields =>
      obtain ⟨h, ha⟩ := analyzeMethodCallArguments_sound _ fields rest
        (by simpa [IrArguments.length] using length) h
      simp only [List.head?_cons, Option.map_some, errorIf_error, ne_eq, Option.some.injEq,
        not_not] at h
      obtain ⟨he, ht⟩ := analyzeExpression_sound s expression h.1
      rw [((analyzeExpression_sameScopes s expression).errorIf _ _).context] at ha
      exact ⟨he, .expression (h.2 ▸ ht) ha⟩

end

private theorem analyzeMethodCallWith_complete {s : Semantics} {identifier : String} {arguments : IrArguments}
    {type : IrDataType} {imported : Semantics → IrArguments × Semantics}
    {regular : List IrField → Semantics → IrArguments × Semantics}
    (hi : ∀ s : Semantics, s.error = false → ImportedArgumentsTyped checkerRules s.context arguments →
      (imported s).2.error = false)
    (hr : ∀ fields (s : Semantics), s.error = false → ArgumentsTyped checkerRules s.context fields arguments →
      fields.length = arguments.length ∧ (regular fields s).2.error = false)
    (he : s.error = false) (h : CallTyped checkerRules s.context identifier arguments type) :
    (analyzeMethodCallWith s identifier arguments imported regular).state.error = false ∧
      (analyzeMethodCallWith s identifier arguments imported regular).type = type := by
  have scopes := ((SameScopes.refl s).getMethodDeclaration identifier).context
  have declared (hn : s.fieldsTableGet identifier = none) {method}
      (hm : s.methodsTableGet identifier = some method) :
      (s.getMethodDeclaration identifier).1 = some method ∧
        (s.getMethodDeclaration identifier).2.error = false :=
    ⟨by simp [getMethodDeclaration, hn, hm],
      (getMethodDeclaration_error s identifier).mpr ⟨he, hn, by simp [hm]⟩⟩
  unfold analyzeMethodCallWith
  cases h with
  | imported unshadowed found himported h =>
    obtain ⟨hm, hd⟩ := declared unshadowed found
    simp only [hm, himported, if_true]
    exact ⟨hi _ hd (scopes ▸ h), trivial⟩
  | declared unshadowed found hdeclared h =>
    obtain ⟨hm, hd⟩ := declared unshadowed found
    obtain ⟨hl, ha⟩ := hr _ _ hd (scopes ▸ h)
    simp only [hm, hdeclared, hl, ne_eq, not_true, if_false, Bool.false_eq_true]
    exact ⟨ha, trivial⟩

mutual

/-- A typed expression is accepted with its type. -/
theorem analyzeExpression_complete (s : Semantics) (expression : IrExpression) {type : IrDataType}
    (he : s.error = false) (h : ExpressionTyped checkerRules s.context expression type) :
    (analyzeExpression s expression).state.error = false ∧
      (analyzeExpression s expression).type = type := by
  cases expression with
  | len identifier length =>
    cases h with
    | len found array =>
      have hf : (s.getFieldDeclaration identifier).1 = _ := found
      simp only [analyzeExpression, hf, array, if_true, and_true]
      exact (getFieldDeclaration_error s identifier).mpr ⟨he, by rw [← context_field, found]; simp⟩
  | negate expression =>
    cases h with
    | negate h =>
      obtain ⟨he, ht⟩ := analyzeExpression_complete s expression he h
      simp [analyzeExpression, he, ht]
  | not expression =>
    cases h with
    | not h =>
      obtain ⟨he, ht⟩ := analyzeExpression_complete s expression he h
      simp [analyzeExpression, he, ht]
  | literal literal =>
    cases h with
    | literal h =>
      simp only [analyzeExpression, analyzeLiteral, errorIf_error, and_true]
      exact ⟨he, h⟩
  | location location =>
    cases h with
    | location h =>
      obtain ⟨he, ht, _⟩ := analyzeLocation_complete s location he h
      exact ⟨he, ht⟩
  | methodCall identifier arguments =>
    cases h with
    | methodCall h value =>
      obtain ⟨he, ht⟩ := analyzeMethodCallWith_complete
        (fun s => analyzeImportedMethodCallArguments_complete s arguments)
        (fun fields s => analyzeMethodCallArguments_complete s fields arguments) he h
      simp only [analyzeExpression, errorIf_error]
      exact ⟨⟨he, ht ▸ value⟩, ht⟩
  | binary operator left right =>
    cases h with
    | binary op hl hr =>
      obtain ⟨he, htl⟩ := analyzeExpression_complete s left he hl
      rw [← (analyzeExpression_sameScopes s left).context] at hr
      obtain ⟨he, htr⟩ := analyzeExpression_complete _ right he hr
      simp only [analyzeExpression, checkBinaryOperands_error, htl, htr]
      exact ⟨⟨he, trivial, (((operatorTyped_iff _ _ _).mp op).1 ▸ op)⟩,
        ((operatorTyped_iff _ _ _).mp op).1.symm⟩

/-- A typed location is accepted with its type. -/
theorem analyzeLocation_complete (s : Semantics) (location : IrLocation) {field : IrField}
    {type : IrDataType} (he : s.error = false)
    (h : LocationTyped checkerRules s.context location field type) :
    (analyzeLocation s location).1.state.error = false ∧ (analyzeLocation s location).1.type = type ∧
      (analyzeLocation s location).2 = field.constant := by
  cases location with
  | scalar node identifier =>
    cases h with
    | scalar found =>
      have hf : (s.getFieldDeclaration identifier).1 = _ := found
      simp only [analyzeLocation, hf, and_true]
      exact (getFieldDeclaration_error s identifier).mpr ⟨he, by rw [← context_field, found]; simp⟩
  | element node identifier index =>
    cases h with
    | element found array h =>
      have hf : (s.getFieldDeclaration identifier).1 = _ := found
      have hd := (getFieldDeclaration_error s identifier).mpr ⟨he, by rw [← context_field, found]; simp⟩
      have scopes := ((((SameScopes.refl s).getFieldDeclaration identifier).logLookup node field).errorIf
        (field.type.isArray = false) ("Cannot index into a non-array field '" ++ identifier ++ "'")).context
      rw [← scopes] at h
      obtain ⟨hi, ht⟩ := analyzeExpression_complete
        (((s.getFieldDeclaration identifier).2.logLookup node _).errorIf _ _) index
        ((errorIf_error _ _ _).mpr ⟨hd, by rw [array]; decide⟩) h
      simp only [analyzeLocation, hf, errorIf_error, ht, and_true]
      exact ⟨hi, by simp⟩

/-- Typed arguments of an imported method are accepted. -/
private theorem analyzeImportedMethodCallArguments_complete (s : Semantics) (arguments : IrArguments)
    (he : s.error = false) (h : ImportedArgumentsTyped checkerRules s.context arguments) :
    (analyzeImportedMethodCallArguments s arguments).2.error = false := by
  cases arguments with
  | nil => exact he
  | string string rest =>
    cases h with
    | string h => exact analyzeImportedMethodCallArguments_complete s rest he h
  | expression expression rest =>
    cases h with
    | expression ht h =>
      obtain ⟨he, _⟩ := analyzeExpression_complete s expression he ht
      exact analyzeImportedMethodCallArguments_complete _ rest he
        ((analyzeExpression_sameScopes s expression).context ▸ h)

/-- Arguments that fit the parameters are accepted. -/
private theorem analyzeMethodCallArguments_complete (s : Semantics) (fields : List IrField) (arguments : IrArguments)
    (he : s.error = false) (h : ArgumentsTyped checkerRules s.context fields arguments) :
    fields.length = arguments.length ∧ (analyzeMethodCallArguments s fields arguments).2.error = false := by
  cases arguments with
  | nil =>
    cases h with
    | nil => exact ⟨rfl, he⟩
  | string string rest => cases h
  | expression expression rest =>
    cases h with
    | @expression field fields _ _ ht h =>
      obtain ⟨he, type⟩ := analyzeExpression_complete s expression he ht
      have scopes := (analyzeExpression_sameScopes s expression).errorIf
        (some field.type ≠ some (analyzeExpression s expression).type)
        "Incorrect type passed into method call"
      obtain ⟨length, h⟩ := analyzeMethodCallArguments_complete _ _ rest
        ((errorIf_error _ _ _).mpr ⟨he, by simp [type]⟩) (scopes.context.symm ▸ h)
      exact ⟨by simp [IrArguments.length, length], h⟩

end

theorem analyzeMethodCall_sound {s : Semantics} {identifier : String} {arguments : IrArguments}
    (h : (analyzeMethodCall s identifier arguments).state.error = false) :
    s.error = false ∧ CallTyped checkerRules s.context identifier arguments
      (analyzeMethodCall s identifier arguments).type :=
  analyzeMethodCallWith_sound (fun s => analyzeImportedMethodCallArguments_sound s arguments)
    (fun fields s => analyzeMethodCallArguments_sound s fields arguments) h

theorem analyzeMethodCall_complete {s : Semantics} {identifier : String} {arguments : IrArguments}
    {type : IrDataType} (he : s.error = false)
    (h : CallTyped checkerRules s.context identifier arguments type) :
    (analyzeMethodCall s identifier arguments).state.error = false :=
  (analyzeMethodCallWith_complete (fun s => analyzeImportedMethodCallArguments_complete s arguments)
    (fun fields s => analyzeMethodCallArguments_complete s fields arguments) he h).1

end Roast
