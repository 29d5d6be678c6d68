import Roast.Semantics.Resolution
import Roast.Semantics.Decides
import Roast.Semantics.Literals

/-! The length literals of arrays: what the checker leaves in a declaration and in every `len` of it. -/
namespace Roast
open Semantics

def IrField.LengthRead (field : IrField) (length : Int) : Prop :=
  ∀ token ∈ field.lengthToken, 1 ≤ token.magnitude ∧ token.magnitude ≤ INT64_MAX ∧ length = token.magnitude

def lengthRules : Rules where
  literal _ := True
  field field := field.LengthRead field.analyzed.arrayLength

def filledRules : Rules where
  literal _ := True
  field field := field.LengthRead field.arrayLength

section
variable (scopes : List (List IrField))

mutual

/-- Every `len` has the number of the length literal of the declaration that its name resolves to. -/
def IrExpression.LensRead : IrExpression → Prop
  | .binary _ left right => left.LensRead ∧ right.LensRead
  | .not expression | .negate expression => expression.LensRead
  | .len identifier length => ∃ field, Context.field ⟨scopes, []⟩ identifier = some field ∧ field.LengthRead length
  | .literal _ => True
  | .methodCall _ arguments => arguments.LensRead
  | .location location => location.LensRead

def IrLocation.LensRead : IrLocation → Prop
  | .scalar _ _ => True
  | .element _ _ index => index.LensRead

def IrArguments.LensRead : IrArguments → Prop
  | .nil => True
  | .string _ rest => rest.LensRead
  | .expression expression rest => expression.LensRead ∧ rest.LensRead

end

def IrAssignment.LensRead (assignment : IrAssignment) : Prop :=
  assignment.location.LensRead scopes ∧ ∀ expression, assignment.expression = some expression → expression.LensRead scopes

def IrForUpdate.LensRead : IrForUpdate → Prop
  | .methodCall _ arguments => arguments.LensRead scopes
  | .assignment update => update.LensRead scopes

end

mutual

def IrStatement.LensRead (scopes : List (List IrField)) : IrStatement → Prop
  | .assignment statement => statement.LensRead scopes
  | .methodCall _ arguments => arguments.LensRead scopes
  | .ifStatement condition ifBlock => condition.LensRead scopes ∧ ifBlock.LensRead scopes []
  | .ifElseStatement condition ifBlock elseBlock =>
    condition.LensRead scopes ∧ ifBlock.LensRead scopes [] ∧ elseBlock.LensRead scopes []
  | .forStatement initial condition update block =>
    initial.LensRead scopes ∧ condition.LensRead scopes ∧ update.LensRead scopes ∧ block.LensRead scopes []
  | .whileStatement condition block => condition.LensRead scopes ∧ block.LensRead scopes []
  | .returnStatement expression => ∀ value, expression = some value → value.LensRead scopes
  | .breakStatement | .continueStatement => True

def IrBlock.LensRead (scopes : List (List IrField)) (initial : List IrField) : IrBlock → Prop
  | .mk fields statements => statements.LensRead ((initial ++ fields) :: scopes)

def IrStatements.LensRead (scopes : List (List IrField)) : IrStatements → Prop
  | .nil => True
  | .cons statement rest => statement.LensRead scopes ∧ rest.LensRead scopes

end

def IrProgram.LensRead (program : IrProgram) : Prop :=
  ∀ method ∈ program.methods, method.block.LensRead [program.fields] method.arguments

def ScopesRead (scopes : List (List IrField)) : Prop := ∀ scope ∈ scopes, ∀ field ∈ scope, field.LengthRead field.arrayLength

theorem ScopesRead.field {scopes : List (List IrField)} (read : ScopesRead scopes) {methods : List IrMethod}
    {identifier : String} {field : IrField} (found : Context.field ⟨scopes, methods⟩ identifier = some field) :
    field.LengthRead field.arrayLength := by
  obtain ⟨scope, mem, inside⟩ := List.exists_of_findSome?_eq_some found
  exact read scope mem field (List.mem_of_find?_eq_some inside)

theorem ScopesRead.enter {scopes : List (List IrField)} (read : ScopesRead scopes) {fields : List IrField}
    (all : ∀ field ∈ fields, lengthRules.field field) : ScopesRead (fields.map IrField.analyzed :: scopes) := by
  intro scope mem field inside
  rcases List.mem_cons.mp mem with rfl | mem
  · obtain ⟨original, given, rfl⟩ := List.mem_map.mp inside
    intro token written
    refine all original given token ?_
    rw [IrField.analyzed] at written
    split at written <;> exact written
  · exact read scope mem field inside

section
variable {r : Rules} {c : Context}

private theorem analyzeMethodCallWith_lens {s : Semantics} (hc : s.context = c) {identifier : String}
    {arguments : IrArguments} {type : IrDataType} {imported : Semantics → IrArguments × Semantics}
    {regular : List IrField → Semantics → IrArguments × Semantics}
    (hi : ∀ s : Semantics, s.context = c → ImportedArgumentsTyped r c arguments → (imported s).1.LensRead c.scopes)
    (hr : ∀ fields (s : Semantics), s.context = c → ArgumentsTyped r c fields arguments →
      (regular fields s).1.LensRead c.scopes)
    (h : CallTyped r c identifier arguments type) :
    (analyzeMethodCallWith s identifier arguments imported regular).node.LensRead c.scopes := by
  have scopes := ((SameScopes.refl s).getMethodDeclaration identifier).context
  have declared (unshadowed : c.field identifier = none) :
      (s.getMethodDeclaration identifier).1 = c.method identifier := by
    rw [← hc, context_field] at unshadowed
    simp [getMethodDeclaration, unshadowed, ← hc]
  rw [analyzeMethodCallWith]
  cases h with
  | imported unshadowed found himported h =>
    simp only [declared unshadowed, found, himported, if_true]
    exact hi _ (scopes.trans hc) h
  | declared unshadowed found hdeclared h =>
    simp only [declared unshadowed, found, hdeclared, argumentsTyped_length h, ne_eq, not_true, if_false,
      Bool.false_eq_true]
    exact hr _ _ (scopes.trans hc) h

mutual

private theorem analyzeExpression_lens (read : ScopesRead c.scopes) (s : Semantics) (hc : s.context = c)
    (expression : IrExpression)
    {type : IrDataType} (h : ExpressionTyped r c expression type) :
    (analyzeExpression s expression).node.LensRead c.scopes := by
  cases expression with
  | len identifier length =>
    cases h with
    | len found array =>
      have hf : (s.getFieldDeclaration identifier).1 = _ := (congrArg (Context.field · identifier) hc).trans found
      simp only [analyzeExpression, hf, array, if_true]
      exact ⟨_, found, read.field found⟩
  | negate expression =>
    cases h with
    | negate h => exact analyzeExpression_lens read s hc expression h
  | not expression =>
    cases h with
    | not h => exact analyzeExpression_lens read s hc expression h
  | literal literal => exact trivial
  | location location =>
    cases h with
    | location h => exact analyzeLocation_lens read s hc location h
  | methodCall identifier arguments =>
    cases h with
    | methodCall h value =>
      exact analyzeMethodCallWith_lens hc
        (fun s hc h => analyzeImportedMethodCallArguments_lens read s hc arguments h)
        (fun fields s hc h => analyzeMethodCallArguments_lens read s hc fields fields arguments h) h
  | binary operator left right =>
    cases h with
    | binary op hl hr =>
      have scopes := (analyzeExpression_sameScopes s left).context
      exact ⟨analyzeExpression_lens read s hc left hl, analyzeExpression_lens read _ (scopes.trans hc) right hr⟩

private theorem analyzeLocation_lens (read : ScopesRead c.scopes) (s : Semantics) (hc : s.context = c)
    (location : IrLocation) {field : IrField}
    {type : IrDataType} (h : LocationTyped r c location field type) :
    (analyzeLocation s location).1.node.LensRead c.scopes := by
  cases location with
  | scalar node identifier =>
    cases h with
    | scalar found =>
      have hf : (s.getFieldDeclaration identifier).1 = _ := (congrArg (Context.field · identifier) hc).trans found
      simp only [analyzeLocation, hf]
      exact trivial
  | element node identifier index =>
    cases h with
    | element found array h =>
      have hf : (s.getFieldDeclaration identifier).1 = _ := (congrArg (Context.field · identifier) hc).trans found
      have scopes := ((((SameScopes.refl s).getFieldDeclaration identifier).logLookup node field).errorIf
        (field.type.isArray = false) ("Cannot index into a non-array field '" ++ identifier ++ "'")).context
      simp only [analyzeLocation, hf]
      exact analyzeExpression_lens read _ (scopes.trans hc) index h

private theorem analyzeImportedMethodCallArguments_lens (read : ScopesRead c.scopes) (s : Semantics)
    (hc : s.context = c)
    (arguments : IrArguments) (h : ImportedArgumentsTyped r c arguments) :
    (analyzeImportedMethodCallArguments s arguments).1.LensRead c.scopes := by
  cases arguments with
  | nil => exact trivial
  | string string rest =>
    cases h with
    | string h => exact analyzeImportedMethodCallArguments_lens read s hc rest h
  | expression expression rest =>
    cases h with
    | expression ht h =>
      have scopes := (analyzeExpression_sameScopes s expression).context
      exact ⟨analyzeExpression_lens read s hc expression ht,
        analyzeImportedMethodCallArguments_lens read _ (scopes.trans hc) rest h⟩

private theorem analyzeMethodCallArguments_lens (read : ScopesRead c.scopes) (s : Semantics)
    (hc : s.context = c)
    (fields checked : List IrField) (arguments : IrArguments) (h : ArgumentsTyped r c fields arguments) :
    (analyzeMethodCallArguments s checked arguments).1.LensRead c.scopes := by
  cases arguments with
  | nil => exact trivial
  | string string rest => cases h
  | expression expression rest =>
    cases h with
    | expression ht h =>
      have scopes := ((analyzeExpression_sameScopes s expression).errorIf
        (checked.head?.map IrField.type ≠ some (analyzeExpression s expression).type)
        "Incorrect type passed into method call").context
      exact ⟨analyzeExpression_lens read s hc expression ht,
        analyzeMethodCallArguments_lens read _ (scopes.trans hc) _ _ rest h⟩

end

variable (read : ScopesRead c.scopes)
include read

private theorem analyzeMethodCall_lens {s : Semantics} (hc : s.context = c) {identifier : String}
    {arguments : IrArguments} {type : IrDataType} (h : CallTyped r c identifier arguments type) :
    (analyzeMethodCall s identifier arguments).node.LensRead c.scopes :=
  analyzeMethodCallWith_lens hc
    (fun s hc h => analyzeImportedMethodCallArguments_lens read s hc arguments h)
    (fun fields s hc h => analyzeMethodCallArguments_lens read s hc fields fields arguments h) h

private theorem analyzeAssignment_lens {s : Semantics} (hc : s.context = c) {assignment : IrAssignment}
    (h : AssignmentTyped r c assignment) : (analyzeAssignment s assignment).1.LensRead c.scopes := by
  obtain ⟨field, type, hl, constant, scalar, int, hx⟩ := h.location
  have location := analyzeLocation_lens read s hc assignment.location hl
  rw [analyzeAssignment]
  cases he : assignment.expression with
  | none =>
    refine ⟨location, fun expression given => ?_⟩
    cases given
  | some expression =>
    have scopes := (((analyzeLocation_sameScopes s assignment.location).errorIf
      ((analyzeLocation s assignment.location).2 = true)
      ("Cannot assign to constant field '" ++ assignment.location.identifier ++ "'")).errorIf
      ((analyzeLocation s assignment.location).1.type.isArray = true)
      ("Cannot assign to array typed field '" ++ assignment.location.identifier ++ "'")).errorIf
      (assignment.assignOperator ≠ .set ∧ (analyzeLocation s assignment.location).1.type ≠ .int)
      "Arithmetic assignment cannot be applied to field that is not of type int"
    refine ⟨location, fun value given => ?_⟩
    cases given
    exact analyzeExpression_lens read _ (scopes.context.trans hc) expression (hx expression he)

private theorem analyzeForUpdate_lens {s : Semantics} (hc : s.context = c) {update : IrForUpdate}
    (h : ForUpdateTyped r c update) : (analyzeForUpdate s update).1.LensRead c.scopes := by
  cases h with
  | methodCall h => exact analyzeMethodCall_lens read hc h
  | assignment h => exact analyzeAssignment_lens read hc h

private theorem analyzeReturnStatement_lens {s : Semantics} (hc : s.context = c) {returnType : IrDataType}
    {expression : Option IrExpression} (h : ReturnTyped r c returnType expression) :
    ∀ value, (analyzeReturnStatement s expression).1 = some value → value.LensRead c.scopes := by
  intro value given
  cases h with
  | none h => cases given
  | some h =>
    cases given
    exact analyzeExpression_lens read s hc _ h

end

section
variable {returnType : IrDataType}

mutual

private theorem analyzeStatement_lens (s : Semantics) (running : s.Running returnType s.context)
    (read : ScopesRead s.context.scopes) (statement : IrStatement) (all : statement.All lengthRules)
    (h : StatementTyped checkerRules returnType s.context s.InLoop statement) :
    (analyzeStatement s statement).1.LensRead s.context.scopes := by
  cases statement with
  | assignment assignment =>
    cases h with
    | assignment h => exact analyzeAssignment_lens read rfl h
  | methodCall identifier arguments =>
    cases h with
    | methodCall h => exact analyzeMethodCall_lens read rfl h
  | ifStatement condition ifBlock =>
    cases h with
    | ifStatement hc hb =>
      have scopes := (analyzeExpression_sameScopes s condition).errorIf
        ((analyzeExpression s condition).type ≠ .bool)
        "Condition expression in if statement must be of type bool"
      obtain ⟨he, ht⟩ := analyzeExpression_complete s condition running.error hc
      have inner := running.step scopes ((errorIf_error _ _ _).mpr ⟨he, by simp [ht]⟩)
      rw [← scopes.context, ← scopes.inLoop] at hb
      rw [← scopes.context] at read
      have block := analyzeBlock_lens _ inner read [] ifBlock (by simp) all.2 hb
      rw [scopes.context] at read block
      exact ⟨analyzeExpression_lens read s rfl condition hc, block⟩
  | ifElseStatement condition ifBlock elseBlock =>
    cases h with
    | ifElseStatement hc hb hb' =>
      have scopes := (analyzeExpression_sameScopes s condition).errorIf
        ((analyzeExpression s condition).type ≠ .bool)
        "Condition expression in if statement must be of type bool"
      have scopes' := scopes.trans (analyzeBlock_sameScopes _ [] ifBlock)
      obtain ⟨he, ht⟩ := analyzeExpression_complete s condition running.error hc
      have inner := running.step scopes ((errorIf_error _ _ _).mpr ⟨he, by simp [ht]⟩)
      rw [← scopes.context, ← scopes.inLoop] at hb
      rw [← scopes'.context, ← scopes'.inLoop] at hb'
      have inner' := running.step scopes'
        (analyzeBlock_complete _ [] ifBlock inner.nested inner.current inner.error hb)
      have block := analyzeBlock_lens _ inner (by rw [scopes.context]; exact read) [] ifBlock (by simp) all.2.1 hb
      have block' := analyzeBlock_lens _ inner' (by rw [scopes'.context]; exact read) [] elseBlock (by simp) all.2.2 hb'
      rw [scopes.context] at block
      rw [scopes'.context] at block'
      exact ⟨analyzeExpression_lens read s rfl condition hc, block, block'⟩
  | forStatement initial condition update block =>
    cases h with
    | forStatement hi hc hu hb =>
      have loop : (enterLoop s).Running returnType (enterLoop s).context :=
        ⟨.refl _, running.2, running.3, running.4⟩
      have initialScopes := analyzeAssignment_sameScopes (enterLoop s) initial
      have conditionScopes := (initialScopes.trans (analyzeExpression_sameScopes _ condition)).errorIf
        ((analyzeExpression (analyzeAssignment (enterLoop s) initial).2 condition).type ≠ .bool)
        "Condition expression in for statement must be of type bool"
      have updateScopes := conditionScopes.trans (analyzeForUpdate_sameScopes _ update)
      have initialRunning := loop.step initialScopes (analyzeAssignment_complete (s := enterLoop s)
        running.error hi)
      have initialLens := analyzeAssignment_lens (s := enterLoop s) read rfl hi
      rw [← initialScopes.loop.1] at hc
      rw [← conditionScopes.loop.1] at hu
      rw [← updateScopes.loop.1, ← updateScopes.loop.2.1] at hb
      obtain ⟨he, ht⟩ := analyzeExpression_complete _ condition initialRunning.error hc
      have conditionRunning := loop.step conditionScopes ((errorIf_error _ _ _).mpr ⟨he, by simp [ht]⟩)
      have updateRunning := loop.step updateScopes (analyzeForUpdate_complete conditionRunning.error hu)
      have conditionLens := analyzeExpression_lens (by rw [initialScopes.loop.1]; exact read) _ rfl condition hc
      have updateLens := analyzeForUpdate_lens (by rw [conditionScopes.loop.1]; exact read) rfl hu
      have blockLens := analyzeBlock_lens _ updateRunning (by rw [updateScopes.loop.1]; exact read) [] block (by simp)
        all.2.2.2 hb
      rw [initialScopes.loop.1] at conditionLens
      rw [conditionScopes.loop.1] at updateLens
      rw [updateScopes.loop.1] at blockLens
      exact ⟨initialLens, conditionLens, updateLens, blockLens⟩
  | whileStatement condition block =>
    cases h with
    | whileStatement hc hb =>
      have loop : (enterLoop s).Running returnType (enterLoop s).context :=
        ⟨.refl _, running.2, running.3, running.4⟩
      have scopes := (analyzeExpression_sameScopes (enterLoop s) condition).errorIf
        ((analyzeExpression (enterLoop s) condition).type ≠ .bool)
        "Condition expression in while statement must be of type bool"
      obtain ⟨he, ht⟩ := analyzeExpression_complete (enterLoop s) condition running.error hc
      have inner := loop.step scopes ((errorIf_error _ _ _).mpr ⟨he, by simp [ht]⟩)
      rw [← scopes.loop.1, ← scopes.loop.2.1] at hb
      have blockLens := analyzeBlock_lens _ inner (by rw [scopes.loop.1]; exact read) [] block (by simp) all.2 hb
      rw [scopes.loop.1] at blockLens
      exact ⟨analyzeExpression_lens (c := s.context) read (enterLoop s) rfl condition hc, blockLens⟩
  | returnStatement expression =>
    cases h with
    | returnStatement h => exact analyzeReturnStatement_lens read rfl h
  | continueStatement => exact trivial
  | breakStatement => exact trivial

private theorem analyzeBlock_lens (s : Semantics) (running : s.Running returnType s.context)
    (read : ScopesRead s.context.scopes) (initial : List IrField) (block : IrBlock)
    (arguments : ∀ field ∈ initial, lengthRules.field field) (all : block.All lengthRules)
    (h : BlockTyped checkerRules returnType s.context s.InLoop initial block) :
    (analyzeBlock s initial block).1.LensRead s.context.scopes (initial.map IrField.analyzed) := by
  cases block with
  | mk fields statements =>
    cases h with
    | mk scope h =>
      have declared := (analyzeFields_sameOutside (s.pushScope []) initial).trans
        (analyzeFields_sameOutside _ fields)
      have inLoop : (analyzeFields (analyzeFields (s.pushScope []) initial) fields).InLoop = s.InLoop := by
        rw [Semantics.InLoop, declared.loopDepth]
        rfl
      obtain ⟨hiff, hcontext⟩ := blockFields_error (s := s) initial fields running.nested
      have hd := hiff.mpr ⟨running.error, scope⟩
      have inner : (analyzeFields (analyzeFields (s.pushScope []) initial) fields).Running returnType
          (analyzeFields (analyzeFields (s.pushScope []) initial) fields).context :=
        ⟨.refl _, blockFields_nested initial fields running.nested, declared.currentMethod ▸ running.current, hd⟩
      rw [← hcontext hd, ← inLoop] at h
      have inside : ScopesRead ((initial ++ fields).map IrField.analyzed :: s.context.scopes) :=
        read.enter fun field mem => (List.mem_append.mp mem).elim (arguments field) (all.1 field)
      have lens := analyzeStatements_lens _ inner (by rw [hcontext hd]; exact inside) statements all.2 h
      rw [hcontext hd, Context.enter, List.map_append] at lens
      exact lens

private theorem analyzeStatements_lens (s : Semantics) (running : s.Running returnType s.context)
    (read : ScopesRead s.context.scopes) (statements : IrStatements) (all : statements.All lengthRules)
    (h : StatementsTyped checkerRules returnType s.context s.InLoop statements) :
    (analyzeStatements s statements).1.LensRead s.context.scopes := by
  cases statements with
  | nil => exact trivial
  | cons statement rest =>
    cases h with
    | cons ht hr =>
      have scopes := analyzeStatement_sameScopes s statement
      have next := running.step scopes
        (analyzeStatement_complete s statement running.nested running.current running.error ht)
      rw [← scopes.context, ← scopes.inLoop] at hr
      have others := analyzeStatements_lens _ next (by rw [scopes.context]; exact read) rest all.2 hr
      rw [scopes.context] at others
      exact ⟨analyzeStatement_lens s running read statement all.1 ht, others⟩

end
end

private theorem analyzeMethods_lens {s : Semantics} {table : List IrField} (stack : s.fieldsTableStack = [table])
    (read : ScopesRead [table]) (depth : s.loopDepth = 0) {methods : List IrMethod}
    (all : ∀ method ∈ methods, method.All lengthRules) (herror : (analyzeMethods s methods).2.error = false)
    (h : MethodsTyped checkerRules ⟨[table], s.methodsTable⟩ methods) :
    ∀ method ∈ (analyzeMethods s methods).1, method.block.LensRead [table] method.arguments := by
  induction methods generalizing s with
  | nil => exact fun _ mem => absurd mem List.not_mem_nil
  | cons method rest ih =>
    cases h with
    | cons hm hr =>
      obtain ⟨hiff, hstack, hdepth, hmethods⟩ := analyzeMethod_error stack depth method
      have first := ((analyzeMethods_error hstack hdepth rest).1.mp herror).1
      rw [← hmethods first] at hr
      have others := ih hstack hdepth (fun other mem => all other (List.mem_cons_of_mem _ mem)) herror hr
      obtain ⟨hd, hstate⟩ := declareMethod_error stack method
      have declared := hstate (hd.mpr ⟨(hiff.mp first).1, (hiff.mp first).2.1⟩)
      have inLoop : Semantics.InLoop { s with
          methodsTable := s.methodsTable ++ [method], currentMethod := some method } = False := by
        simp [Semantics.InLoop, depth]
      have running : Semantics.Running { s with
          methodsTable := s.methodsTable ++ [method], currentMethod := some method } method.returnType
          (Semantics.context { s with
            methodsTable := s.methodsTable ++ [method], currentMethod := some method }) :=
        ⟨.refl _, by simp [stack], rfl, (hiff.mp first).1⟩
      have own := all method List.mem_cons_self
      have block := analyzeBlock_lens _ running (by rw [Semantics.context, stack]; exact read) method.arguments
        method.block own.arguments own.block (by
          rw [inLoop]
          simpa only [Semantics.context, stack] using hm)
      have unfolded : (analyzeMethod s method).1.block.LensRead [table] (analyzeMethod s method).1.arguments := by
        rw [analyzeMethod, declared, ← stack]
        exact block
      rw [analyzeMethods]
      exact List.forall_mem_cons.mpr ⟨unfolded, others⟩

/-- The lengths that the checker leaves in the `len` of an accepted program. -/
theorem accepts_lensRead {program analyzed : IrProgram} (source : program.FromSource) (h : Accepts program analyzed)
    (all : program.All lengthRules) : analyzed.LensRead := by
  have herror := accepts_error h
  have typed := ((programTyped_and program).mp (accepts_typed source h)).1
  obtain ⟨_, rfl⟩ := Prod.ext_iff.mp h
  obtain ⟨table, stack, depth, _, globals⟩ := declarations_spec program
  have hmethods := (checkMain_error.mp herror).1
  obtain ⟨rfl, methodsTable⟩ := globals ((analyzeMethods_error stack depth program.methods).1.mp hmethods).1
  have read : ScopesRead [program.fields.map IrField.analyzed] :=
    ScopesRead.enter (fun scope mem => absurd mem List.not_mem_nil) all.fields
  exact analyzeMethods_lens stack read depth all.methods hmethods (by rw [methodsTable]; exact typed.methods)

/-- A length literal of an accepted declaration stands alone, and the checker keeps its number. -/
def lengthsAccepted : Rules where
  literal _ := True
  field field := (∀ _ ∈ field.lengthToken, ∀ initializer ∈ field.initializer, initializer.array = false) ∧
    field.LengthRead field.analyzed.arrayLength

/-- A length literal next to an array initializer has a value of 64 bits, and not too many digits. -/
def lengthsInRange : Rules where
  literal _ := True
  field field := ∀ token ∈ field.lengthToken, (∃ initializer ∈ field.initializer, initializer.array = true) →
    token.InRange false ∧ ¬ token.Overlong

@[simp] theorem IrField.analyzed_lengthToken (field : IrField) : field.analyzed.lengthToken = field.lengthToken := by
  rw [IrField.analyzed]
  split <;> rfl

/-- The number of a length literal that the converter takes, and the marker otherwise. -/
private theorem lengthToken_toInt {token : IntLiteralToken} (wellFormed : token.WellFormed) :
    (irIntLiteralFromAst token false).toInt =
      if token.InRange false ∧ ¬ token.Overlong then (token.magnitude : Int) else -1 := by
  by_cases range : token.InRange false
  · rw [arrayLength_of_token wellFormed range]
    by_cases long : token.Overlong
    · rw [if_pos long, if_neg fun both => both.2 long]
    · rw [if_neg long, if_pos ⟨range, long⟩]
  · rw [irIntLiteralFromAst_overflow wellFormed range, if_neg fun both => range both.1]
    decide

private theorem lengthsAccepted_iff {field : IrField} (source : field.FromSource) (accepted : field.Accepted) :
    lengthsAccepted.field field ↔ lengthsInRange.field field := by
  have declared (token : IntLiteralToken) (given : token ∈ field.lengthToken) : field.type.isArray = true ∧
      field.arrayLength = if token.InRange false ∧ ¬ token.Overlong then (token.magnitude : Int) else -1 := by
    have given : field.lengthToken = some token := given
    have array : field.type.isArray = true := by
      by_contra scalar
      have none := (source.scalar (by simpa using scalar)).2
      rw [given] at none
      cases none
    rw [source.array array, given]
    exact ⟨array, lengthToken_toInt (source.length token given)⟩
  constructor
  · rintro ⟨alone, -⟩ token given ⟨initializer, written, array⟩
    have unbraced := alone token given initializer written
    rw [array] at unbraced
    cases unbraced
  · intro range
    cases written : field.initializer with
    | none =>
      rw [IrField.Accepted, written] at accepted
      have exact (token : IntLiteralToken) (given : token ∈ field.lengthToken) :
          1 ≤ token.magnitude ∧ token.magnitude ≤ INT64_MAX ∧ field.arrayLength = token.magnitude := by
        obtain ⟨array, length⟩ := declared token given
        by_cases fits : token.InRange false ∧ ¬ token.Overlong
        · rw [if_pos fits] at length
          have positive : field.arrayLength ≠ 0 := fun zero => accepted.2.1 ⟨array, zero⟩
          exact ⟨by omega, fits.1, length⟩
        · rw [if_neg fits] at length
          exact absurd ⟨array, length⟩ accepted.1
      refine ⟨fun _ _ initializer impossible => ?_, ?_⟩
      · rw [written] at impossible
        exact absurd impossible (Option.not_mem_none _)
      · rw [IrField.analyzed, written]
        exact exact
    | some initializer =>
      have noLength (token : IntLiteralToken) (given : token ∈ field.lengthToken) : False := by
        obtain ⟨array, length⟩ := declared token given
        rw [IrField.Accepted, written] at accepted
        obtain ⟨literals, type, absent⟩ := accepted
        have braced := ((IrField.initializer_type_iff source written).mp
          ⟨fun literal mem => (literals literal mem).2, type⟩).1.trans array
        rw [if_pos (range token given ⟨initializer, written, braced⟩)] at length
        exact absent ⟨array, braced, by omega⟩
      exact ⟨fun token given => (noLength token given).elim, fun token given => (noLength token given).elim⟩

/-- What holds of every literal and field of a typed program. -/
theorem IrProgram.all_of_typed {t r : Rules} {program : IrProgram} (typed : ProgramTyped t program)
    (literal : ∀ literal, t.literal literal → r.literal literal) (field : ∀ field, t.field field → r.field field) :
    program.All r := by
  rcases t with ⟨literals, fields⟩
  have same : (⟨literals, fields⟩ : Rules) = Rules.and ⟨literals, fields⟩ r := by
    rw [Rules.and]
    congr 1
    · funext l
      exact propext (iff_self_and.mpr (literal l))
    · funext f
      exact propext (iff_self_and.mpr (field f))
  rw [same] at typed
  exact ((programTyped_and program).mp typed).2

section
variable {program analyzed : IrProgram} (source : program.FromSource) (accepted : Accepts program analyzed)
include source accepted

theorem accepts_lengthsAccepted_iff : program.All lengthsAccepted ↔ program.All lengthsInRange := by
  have typed := accepts_typed source accepted
  constructor
  · intro all
    exact IrProgram.all_of_typed ((programTyped_and program).mpr ⟨typed, all⟩) (fun _ _ => trivial)
      fun field h => (lengthsAccepted_iff h.1.2 h.1.1).mp h.2
  · intro all
    exact IrProgram.all_of_typed ((programTyped_and program).mpr ⟨typed, all⟩) (fun _ _ => trivial)
      fun field h => (lengthsAccepted_iff h.1.2 h.1.1).mpr h.2

/-- The analyzed program has the numbers in its declarations. -/
theorem accepts_filled (all : program.All lengthRules) :
    analyzed.All filledRules := by
  have typed := (programTyped_and program).mpr ⟨accepts_typed source accepted, all⟩
  have split : ProgramTyped (checkerRules.and (sourceRules.and lengthRules)) program := by
    have same : (checkerRules.and sourceRules).and lengthRules = checkerRules.and (sourceRules.and lengthRules) := by
      simp only [Rules.and, and_assoc]
    rwa [← same]
  have fills : (sourceRules.and lengthRules).Fills filledRules := by
    refine ⟨fun _ _ => trivial, fun field h token given => ?_⟩
    rw [IrField.analyzed_lengthToken] at given
    exact h.2.2 token given
  exact IrProgram.all_of_typed (accepts_fills fills source split accepted) (fun _ _ => trivial) fun _ h => h

end

end Roast
