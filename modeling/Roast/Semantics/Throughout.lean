import Roast.Semantics.TypeSystem

/-! The part of a set of rules that needs no context: the literals and the fields of a program. A typing
under two sets of rules is a typing under the first and a program that obeys the second throughout. -/
namespace Roast

def Rules.and (r r' : Rules) : Rules :=
  ⟨fun literal => r.literal literal ∧ r'.literal literal, fun field => r.field field ∧ r'.field field⟩

mutual

def IrExpression.All (r : Rules) : IrExpression → Prop
  | .binary _ left right => left.All r ∧ right.All r
  | .not expression | .negate expression => expression.All r
  | .len _ _ => True
  | .methodCall _ arguments => arguments.All r
  | .literal literal => r.literal literal
  | .location location => location.All r

def IrLocation.All (r : Rules) : IrLocation → Prop
  | .scalar _ _ => True
  | .element _ _ index => index.All r

def IrArguments.All (r : Rules) : IrArguments → Prop
  | .nil => True
  | .string _ rest => rest.All r
  | .expression expression rest => expression.All r ∧ rest.All r

end

def IrAssignment.All (r : Rules) (assignment : IrAssignment) : Prop :=
  assignment.location.All r ∧ ∀ expression, assignment.expression = some expression → expression.All r

def IrForUpdate.All (r : Rules) : IrForUpdate → Prop
  | .methodCall _ arguments => arguments.All r
  | .assignment update => update.All r

mutual

def IrStatement.All (r : Rules) : IrStatement → Prop
  | .assignment statement => statement.All r
  | .methodCall _ arguments => arguments.All r
  | .ifStatement condition ifBlock => condition.All r ∧ ifBlock.All r
  | .ifElseStatement condition ifBlock elseBlock => condition.All r ∧ ifBlock.All r ∧ elseBlock.All r
  | .forStatement initial condition update block =>
    initial.All r ∧ condition.All r ∧ update.All r ∧ block.All r
  | .whileStatement condition block => condition.All r ∧ block.All r
  | .returnStatement expression => ∀ value, expression = some value → value.All r
  | .breakStatement | .continueStatement => True

def IrBlock.All (r : Rules) : IrBlock → Prop
  | .mk fields statements => (∀ field ∈ fields, r.field field) ∧ statements.All r

def IrStatements.All (r : Rules) : IrStatements → Prop
  | .nil => True
  | .cons statement rest => statement.All r ∧ rest.All r

end

structure IrMethod.All (r : Rules) (method : IrMethod) : Prop where
  arguments : ∀ field ∈ method.arguments, r.field field
  block : method.block.All r

structure IrProgram.All (r : Rules) (program : IrProgram) : Prop where
  fields : ∀ field ∈ program.fields, r.field field
  methods : ∀ method ∈ program.methods, method.All r

section
variable (r : Rules) [DecidablePred r.literal] [DecidablePred r.field]

mutual

def IrExpression.decideAll : (expression : IrExpression) → Decidable (expression.All r)
  | .binary _ left right =>
    have := left.decideAll
    have := right.decideAll
    inferInstanceAs (Decidable (left.All r ∧ right.All r))
  | .not expression | .negate expression => expression.decideAll
  | .len _ _ => .isTrue trivial
  | .methodCall _ arguments => arguments.decideAll
  | .literal literal => inferInstanceAs (Decidable (r.literal literal))
  | .location location => location.decideAll

def IrLocation.decideAll : (location : IrLocation) → Decidable (location.All r)
  | .scalar _ _ => .isTrue trivial
  | .element _ _ index => index.decideAll

def IrArguments.decideAll : (arguments : IrArguments) → Decidable (arguments.All r)
  | .nil => .isTrue trivial
  | .string _ rest => rest.decideAll
  | .expression expression rest =>
    have := expression.decideAll
    have := rest.decideAll
    inferInstanceAs (Decidable (expression.All r ∧ rest.All r))

end

def decideAllOption : (expression : Option IrExpression) →
    Decidable (∀ value, expression = some value → value.All r)
  | none => .isTrue nofun
  | some value =>
    have := value.decideAll r
    decidable_of_iff (value.All r) ⟨fun h _ same => Option.some.inj same ▸ h, fun h => h value rfl⟩

instance IrAssignment.decideAll (assignment : IrAssignment) : Decidable (assignment.All r) :=
  have := assignment.location.decideAll r
  have := decideAllOption r assignment.expression
  inferInstanceAs (Decidable (_ ∧ _))

def IrForUpdate.decideAll : (update : IrForUpdate) → Decidable (update.All r)
  | .methodCall _ arguments => arguments.decideAll r
  | .assignment update => update.decideAll r

mutual

def IrStatement.decideAll : (statement : IrStatement) → Decidable (statement.All r)
  | .assignment statement => statement.decideAll r
  | .methodCall _ arguments => arguments.decideAll r
  | .ifStatement condition ifBlock =>
    have := condition.decideAll r
    have := ifBlock.decideAll
    inferInstanceAs (Decidable (condition.All r ∧ ifBlock.All r))
  | .ifElseStatement condition ifBlock elseBlock =>
    have := condition.decideAll r
    have := ifBlock.decideAll
    have := elseBlock.decideAll
    inferInstanceAs (Decidable (condition.All r ∧ ifBlock.All r ∧ elseBlock.All r))
  | .forStatement initial condition update block =>
    have := initial.decideAll r
    have := condition.decideAll r
    have := update.decideAll r
    have := block.decideAll
    inferInstanceAs (Decidable (initial.All r ∧ condition.All r ∧ update.All r ∧ block.All r))
  | .whileStatement condition block =>
    have := condition.decideAll r
    have := block.decideAll
    inferInstanceAs (Decidable (condition.All r ∧ block.All r))
  | .returnStatement expression => decideAllOption r expression
  | .breakStatement | .continueStatement => .isTrue trivial

def IrBlock.decideAll : (block : IrBlock) → Decidable (block.All r)
  | .mk fields statements =>
    have := statements.decideAll
    inferInstanceAs (Decidable ((∀ field ∈ fields, r.field field) ∧ statements.All r))

def IrStatements.decideAll : (statements : IrStatements) → Decidable (statements.All r)
  | .nil => .isTrue trivial
  | .cons statement rest =>
    have := statement.decideAll
    have := rest.decideAll
    inferInstanceAs (Decidable (statement.All r ∧ rest.All r))

end

instance (method : IrMethod) : Decidable (method.All r) :=
  have := method.block.decideAll r
  decidable_of_iff ((∀ field ∈ method.arguments, r.field field) ∧ method.block.All r)
    ⟨fun h => ⟨h.1, h.2⟩, fun h => ⟨h.arguments, h.block⟩⟩

instance (program : IrProgram) : Decidable (program.All r) :=
  decidable_of_iff ((∀ field ∈ program.fields, r.field field) ∧ ∀ method ∈ program.methods, method.All r)
    ⟨fun h => ⟨h.1, h.2⟩, fun h => ⟨h.fields, h.methods⟩⟩

end

section
variable {r r' : Rules} {c : Context}

private theorem callTyped_and_of (identifier : String) {arguments : IrArguments} (type : IrDataType)
    (himported : ImportedArgumentsTyped (r.and r') c arguments ↔
      ImportedArgumentsTyped r c arguments ∧ arguments.All r')
    (hdeclared : ∀ fields, ArgumentsTyped (r.and r') c fields arguments ↔
      ArgumentsTyped r c fields arguments ∧ arguments.All r') :
    CallTyped (r.and r') c identifier arguments type ↔
      CallTyped r c identifier arguments type ∧ arguments.All r' := by
  constructor
  · intro typed
    cases typed with
    | imported unshadowed found imported h =>
      exact ⟨.imported unshadowed found imported (himported.mp h).1, (himported.mp h).2⟩
    | declared unshadowed found declared h =>
      exact ⟨.declared unshadowed found declared ((hdeclared _).mp h).1, ((hdeclared _).mp h).2⟩
  · rintro ⟨typed, h'⟩
    cases typed with
    | imported unshadowed found imported h =>
      exact .imported unshadowed found imported (himported.mpr ⟨h, h'⟩)
    | declared unshadowed found declared h =>
      exact .declared unshadowed found declared ((hdeclared _).mpr ⟨h, h'⟩)

mutual

/-- An expression is typed by both sets of rules exactly if it is typed by the first and meets the second throughout. -/
theorem expressionTyped_and (expression : IrExpression) (type : IrDataType) :
    ExpressionTyped (r.and r') c expression type ↔ ExpressionTyped r c expression type ∧ expression.All r' := by
  cases expression with
  | binary operator left right =>
    constructor
    · intro typed
      cases typed with
      | binary op hl hr =>
        obtain ⟨hl, hl'⟩ := (expressionTyped_and left _).mp hl
        obtain ⟨hr, hr'⟩ := (expressionTyped_and right _).mp hr
        exact ⟨.binary op hl hr, hl', hr'⟩
    · rintro ⟨typed, hl', hr'⟩
      cases typed with
      | binary op hl hr =>
        exact .binary op ((expressionTyped_and left _).mpr ⟨hl, hl'⟩) ((expressionTyped_and right _).mpr ⟨hr, hr'⟩)
  | not expression =>
    constructor
    · intro typed
      cases typed with
      | not h =>
        exact ⟨.not ((expressionTyped_and expression _).mp h).1, ((expressionTyped_and expression _).mp h).2⟩
    · rintro ⟨typed, h'⟩
      cases typed with
      | not h =>
        exact .not ((expressionTyped_and expression _).mpr ⟨h, h'⟩)
  | negate expression =>
    constructor
    · intro typed
      cases typed with
      | negate h =>
        exact ⟨.negate ((expressionTyped_and expression _).mp h).1, ((expressionTyped_and expression _).mp h).2⟩
    · rintro ⟨typed, h'⟩
      cases typed with
      | negate h =>
        exact .negate ((expressionTyped_and expression _).mpr ⟨h, h'⟩)
  | len identifier length =>
    constructor
    · intro typed
      cases typed with
      | len found array =>
        exact ⟨.len found array, trivial⟩
    · rintro ⟨typed, _⟩
      cases typed with
      | len found array =>
        exact .len found array
  | methodCall identifier arguments =>
    have call := callTyped_and_of identifier type
      (importedArgumentsTyped_and arguments) (fun fields => argumentsTyped_and arguments fields)
    constructor
    · intro typed
      cases typed with
      | methodCall h value =>
        obtain ⟨h, h'⟩ := call.mp h
        exact ⟨.methodCall h value, h'⟩
    · rintro ⟨typed, h'⟩
      cases typed with
      | methodCall h value =>
        exact .methodCall (call.mpr ⟨h, h'⟩) value
  | literal literal =>
    constructor
    · intro typed
      cases typed with
      | literal h =>
        exact ⟨.literal h.1, h.2⟩
    · rintro ⟨typed, h'⟩
      cases typed with
      | literal h =>
        exact .literal ⟨h, h'⟩
  | location location =>
    constructor
    · intro typed
      cases typed with
      | location h =>
        exact ⟨.location ((locationTyped_and location _ _).mp h).1,
          ((locationTyped_and location _ _).mp h).2⟩
    · rintro ⟨typed, h'⟩
      cases typed with
      | location h =>
        exact .location ((locationTyped_and location _ _).mpr ⟨h, h'⟩)

private theorem locationTyped_and (location : IrLocation) (field : IrField) (type : IrDataType) :
    LocationTyped (r.and r') c location field type ↔ LocationTyped r c location field type ∧ location.All r' := by
  cases location with
  | scalar node identifier =>
    constructor
    · intro typed
      cases typed with
      | scalar found =>
        exact ⟨.scalar found, trivial⟩
    · rintro ⟨typed, _⟩
      cases typed with
      | scalar found =>
        exact .scalar found
  | element node identifier index =>
    constructor
    · intro typed
      cases typed with
      | element found array h =>
        exact ⟨.element found array ((expressionTyped_and index _).mp h).1, ((expressionTyped_and index _).mp h).2⟩
    · rintro ⟨typed, h'⟩
      cases typed with
      | element found array h =>
        exact .element found array ((expressionTyped_and index _).mpr ⟨h, h'⟩)

private theorem importedArgumentsTyped_and (arguments : IrArguments) :
    ImportedArgumentsTyped (r.and r') c arguments ↔ ImportedArgumentsTyped r c arguments ∧ arguments.All r' := by
  cases arguments with
  | nil => exact ⟨fun _ => ⟨.nil, trivial⟩, fun _ => .nil⟩
  | string string rest =>
    constructor
    · intro typed
      cases typed with
      | string h =>
        obtain ⟨h, h'⟩ := (importedArgumentsTyped_and rest).mp h
        exact ⟨.string h, h'⟩
    · rintro ⟨typed, h'⟩
      cases typed with
      | string h =>
        exact .string ((importedArgumentsTyped_and rest).mpr ⟨h, h'⟩)
  | expression expression rest =>
    constructor
    · intro typed
      cases typed with
      | expression he h =>
        obtain ⟨he, he'⟩ := (expressionTyped_and expression _).mp he
        obtain ⟨h, h'⟩ := (importedArgumentsTyped_and rest).mp h
        exact ⟨.expression he h, he', h'⟩
    · rintro ⟨typed, he', h'⟩
      cases typed with
      | expression he h =>
        exact .expression ((expressionTyped_and expression _).mpr ⟨he, he'⟩)
          ((importedArgumentsTyped_and rest).mpr ⟨h, h'⟩)

private theorem argumentsTyped_and (arguments : IrArguments) (fields : List IrField) :
    ArgumentsTyped (r.and r') c fields arguments ↔ ArgumentsTyped r c fields arguments ∧ arguments.All r' := by
  cases arguments with
  | nil =>
    constructor
    · rintro ⟨⟩
      exact ⟨.nil, trivial⟩
    · rintro ⟨⟨⟩, _⟩
      exact .nil
  | string string rest =>
    constructor
    · rintro ⟨⟩
    · rintro ⟨⟨⟩, _⟩
  | expression expression rest =>
    constructor
    · intro typed
      cases typed with
      | expression he h =>
        obtain ⟨he, he'⟩ := (expressionTyped_and expression _).mp he
        obtain ⟨h, h'⟩ := (argumentsTyped_and rest _).mp h
        exact ⟨.expression he h, he', h'⟩
    · rintro ⟨typed, he', h'⟩
      cases typed with
      | expression he h =>
        exact .expression ((expressionTyped_and expression _).mpr ⟨he, he'⟩)
          ((argumentsTyped_and rest _).mpr ⟨h, h'⟩)

end

private theorem callTyped_and (identifier : String) (arguments : IrArguments) (type : IrDataType) :
    CallTyped (r.and r') c identifier arguments type ↔
      CallTyped r c identifier arguments type ∧ arguments.All r' :=
  callTyped_and_of identifier type (importedArgumentsTyped_and arguments) (argumentsTyped_and arguments)

theorem assignmentTyped_and (assignment : IrAssignment) : AssignmentTyped (r.and r') c assignment ↔
    AssignmentTyped r c assignment ∧ assignment.All r' := by
  constructor
  · rintro ⟨field, type, hl, constant, scalar, int, he⟩
    obtain ⟨hl, hl'⟩ := (locationTyped_and _ field type).mp hl
    exact ⟨⟨field, type, hl, constant, scalar, int, fun e h => ((expressionTyped_and e type).mp (he e h)).1⟩,
      hl', fun e h => ((expressionTyped_and e type).mp (he e h)).2⟩
  · rintro ⟨⟨field, type, hl, constant, scalar, int, he⟩, hl', he'⟩
    exact ⟨field, type, (locationTyped_and _ field type).mpr ⟨hl, hl'⟩, constant, scalar, int,
      fun e h => (expressionTyped_and e type).mpr ⟨he e h, he' e h⟩⟩

theorem forUpdateTyped_and (update : IrForUpdate) : ForUpdateTyped (r.and r') c update ↔
    ForUpdateTyped r c update ∧ update.All r' := by
  cases update with
  | methodCall identifier arguments =>
    constructor
    · intro typed
      cases typed with
      | methodCall h =>
        exact ⟨.methodCall ((callTyped_and identifier arguments _).mp h).1,
          ((callTyped_and identifier arguments _).mp h).2⟩
    · rintro ⟨typed, h'⟩
      cases typed with
      | methodCall h =>
        exact .methodCall ((callTyped_and identifier arguments _).mpr ⟨h, h'⟩)
  | assignment assignment =>
    constructor
    · intro typed
      cases typed with
      | assignment h =>
        exact ⟨.assignment ((assignmentTyped_and assignment).mp h).1, ((assignmentTyped_and assignment).mp h).2⟩
    · rintro ⟨typed, h'⟩
      cases typed with
      | assignment h =>
        exact .assignment ((assignmentTyped_and assignment).mpr ⟨h, h'⟩)

private theorem returnTyped_and (returnType : IrDataType) (expression : Option IrExpression) :
    ReturnTyped (r.and r') c returnType expression ↔
      ReturnTyped r c returnType expression ∧ ∀ value, expression = some value → value.All r' := by
  constructor
  · rintro (h | h)
    · exact ⟨.none h, by simp⟩
    · obtain ⟨h, h'⟩ := (expressionTyped_and _ _).mp h
      exact ⟨.some h, by rintro _ ⟨rfl⟩; exact h'⟩
  · rintro ⟨h | h, h'⟩
    · exact .none h
    · exact .some ((expressionTyped_and _ _).mpr ⟨h, h' _ rfl⟩)

theorem scopeTyped_and (fields : List IrField) :
    ScopeTyped (r.and r') fields ↔ ScopeTyped r fields ∧ ∀ field ∈ fields, r'.field field :=
  ⟨fun h => ⟨⟨h.1, fun field hf => (h.2 field hf).1⟩, fun field hf => (h.2 field hf).2⟩,
    fun h => ⟨h.1.1, fun field hf => ⟨h.1.2 field hf, h.2 field hf⟩⟩⟩

end

section
variable {r r' : Rules} {returnType : IrDataType}

mutual

/-- A statement is typed by both sets of rules exactly if it is typed by the first and meets the second throughout. -/
theorem statementTyped_and (statement : IrStatement) (c : Context) (inLoop : Prop) :
    StatementTyped (r.and r') returnType c inLoop statement ↔
      StatementTyped r returnType c inLoop statement ∧ statement.All r' := by
  cases statement with
  | assignment assignment =>
    constructor
    · intro typed
      cases typed with
      | assignment h =>
        exact ⟨.assignment ((assignmentTyped_and assignment).mp h).1, ((assignmentTyped_and assignment).mp h).2⟩
    · rintro ⟨typed, h'⟩
      cases typed with
      | assignment h =>
        exact .assignment ((assignmentTyped_and assignment).mpr ⟨h, h'⟩)
  | methodCall identifier arguments =>
    constructor
    · intro typed
      cases typed with
      | methodCall h =>
        exact ⟨.methodCall ((callTyped_and identifier arguments _).mp h).1,
          ((callTyped_and identifier arguments _).mp h).2⟩
    · rintro ⟨typed, h'⟩
      cases typed with
      | methodCall h =>
        exact .methodCall ((callTyped_and identifier arguments _).mpr ⟨h, h'⟩)
  | ifStatement condition ifBlock =>
    constructor
    · intro typed
      cases typed with
      | ifStatement hc hb =>
        obtain ⟨hc, hc'⟩ := (expressionTyped_and condition _).mp hc
        obtain ⟨hb, hb', _⟩ := (blockTyped_and ifBlock c inLoop []).mp hb
        exact ⟨.ifStatement hc hb, hc', hb'⟩
    · rintro ⟨typed, hc', hb'⟩
      cases typed with
      | ifStatement hc hb =>
        exact .ifStatement ((expressionTyped_and condition _).mpr ⟨hc, hc'⟩)
          ((blockTyped_and ifBlock c inLoop []).mpr ⟨hb, hb', by simp⟩)
  | ifElseStatement condition ifBlock elseBlock =>
    constructor
    · intro typed
      cases typed with
      | ifElseStatement hc hb he =>
        obtain ⟨hc, hc'⟩ := (expressionTyped_and condition _).mp hc
        obtain ⟨hb, hb', _⟩ := (blockTyped_and ifBlock c inLoop []).mp hb
        obtain ⟨he, he', _⟩ := (blockTyped_and elseBlock c inLoop []).mp he
        exact ⟨.ifElseStatement hc hb he, hc', hb', he'⟩
    · rintro ⟨typed, hc', hb', he'⟩
      cases typed with
      | ifElseStatement hc hb he =>
        exact .ifElseStatement ((expressionTyped_and condition _).mpr ⟨hc, hc'⟩)
          ((blockTyped_and ifBlock c inLoop []).mpr ⟨hb, hb', by simp⟩)
          ((blockTyped_and elseBlock c inLoop []).mpr ⟨he, he', by simp⟩)
  | forStatement initial condition update block =>
    constructor
    · intro typed
      cases typed with
      | forStatement hi hc hu hb =>
        obtain ⟨hi, hi'⟩ := (assignmentTyped_and initial).mp hi
        obtain ⟨hc, hc'⟩ := (expressionTyped_and condition _).mp hc
        obtain ⟨hu, hu'⟩ := (forUpdateTyped_and update).mp hu
        obtain ⟨hb, hb', _⟩ := (blockTyped_and block c True []).mp hb
        exact ⟨.forStatement hi hc hu hb, hi', hc', hu', hb'⟩
    · rintro ⟨typed, hi', hc', hu', hb'⟩
      cases typed with
      | forStatement hi hc hu hb =>
        exact .forStatement ((assignmentTyped_and initial).mpr ⟨hi, hi'⟩)
          ((expressionTyped_and condition _).mpr ⟨hc, hc'⟩) ((forUpdateTyped_and update).mpr ⟨hu, hu'⟩)
          ((blockTyped_and block c True []).mpr ⟨hb, hb', by simp⟩)
  | whileStatement condition block =>
    constructor
    · intro typed
      cases typed with
      | whileStatement hc hb =>
        obtain ⟨hc, hc'⟩ := (expressionTyped_and condition _).mp hc
        obtain ⟨hb, hb', _⟩ := (blockTyped_and block c True []).mp hb
        exact ⟨.whileStatement hc hb, hc', hb'⟩
    · rintro ⟨typed, hc', hb'⟩
      cases typed with
      | whileStatement hc hb =>
        exact .whileStatement ((expressionTyped_and condition _).mpr ⟨hc, hc'⟩)
          ((blockTyped_and block c True []).mpr ⟨hb, hb', by simp⟩)
  | returnStatement expression =>
    constructor
    · intro typed
      cases typed with
      | returnStatement h =>
        exact ⟨.returnStatement ((returnTyped_and returnType expression).mp h).1,
          ((returnTyped_and returnType expression).mp h).2⟩
    · rintro ⟨typed, h'⟩
      cases typed with
      | returnStatement h =>
        exact .returnStatement ((returnTyped_and returnType expression).mpr ⟨h, h'⟩)
  | breakStatement =>
    constructor
    · intro typed
      cases typed with
      | breakStatement h =>
        exact ⟨.breakStatement h, trivial⟩
    · rintro ⟨typed, _⟩
      cases typed with
      | breakStatement h =>
        exact .breakStatement h
  | continueStatement =>
    constructor
    · intro typed
      cases typed with
      | continueStatement h =>
        exact ⟨.continueStatement h, trivial⟩
    · rintro ⟨typed, _⟩
      cases typed with
      | continueStatement h =>
        exact .continueStatement h

/-- A block is typed by both sets of rules exactly if it is typed by the first and meets the second throughout. -/
theorem blockTyped_and (block : IrBlock) (c : Context) (inLoop : Prop) (initial : List IrField) :
    BlockTyped (r.and r') returnType c inLoop initial block ↔
      BlockTyped r returnType c inLoop initial block ∧ block.All r' ∧ ∀ field ∈ initial, r'.field field := by
  cases block with
  | mk fields statements =>
    constructor
    · rintro ⟨scope, h⟩
      obtain ⟨scope, hf⟩ := (scopeTyped_and _).mp scope
      obtain ⟨h, h'⟩ := (statementsTyped_and statements _ inLoop).mp h
      exact ⟨.mk scope h, ⟨fun f hf' => hf f (List.mem_append_right _ hf'), h'⟩,
        fun f hf' => hf f (List.mem_append_left _ hf')⟩
    · rintro ⟨⟨scope, h⟩, ⟨hf, h'⟩, hi⟩
      refine .mk ((scopeTyped_and _).mpr ⟨scope, fun f hf' => ?_⟩)
        ((statementsTyped_and statements _ inLoop).mpr ⟨h, h'⟩)
      exact (List.mem_append.mp hf').elim (hi f) (hf f)

private theorem statementsTyped_and (statements : IrStatements) (c : Context) (inLoop : Prop) :
    StatementsTyped (r.and r') returnType c inLoop statements ↔
      StatementsTyped r returnType c inLoop statements ∧ statements.All r' := by
  cases statements with
  | nil => exact ⟨fun _ => ⟨.nil, trivial⟩, fun _ => .nil⟩
  | cons statement rest =>
    constructor
    · intro typed
      cases typed with
      | cons hs hr =>
        obtain ⟨hs, hs'⟩ := (statementTyped_and statement c inLoop).mp hs
        obtain ⟨hr, hr'⟩ := (statementsTyped_and rest c inLoop).mp hr
        exact ⟨.cons hs hr, hs', hr'⟩
    · rintro ⟨typed, hs', hr'⟩
      cases typed with
      | cons hs hr =>
        exact .cons ((statementTyped_and statement c inLoop).mpr ⟨hs, hs'⟩)
          ((statementsTyped_and rest c inLoop).mpr ⟨hr, hr'⟩)

end

/-- Methods are typed by both sets of rules exactly if they are typed by the first and meet the second throughout. -/
private theorem methodsTyped_and (methods : List IrMethod) (c : Context) : MethodsTyped (r.and r') c methods ↔
    MethodsTyped r c methods ∧ ∀ method ∈ methods, method.All r' := by
  induction methods generalizing c with
  | nil => exact ⟨fun _ => ⟨.nil, by simp⟩, fun _ => .nil⟩
  | cons method rest ih =>
    rw [List.forall_mem_cons]
    constructor
    · intro typed
      cases typed with
      | cons hm hr =>
        obtain ⟨hm, hb, ha⟩ := (blockTyped_and _ _ _ _).mp hm
        obtain ⟨hr, hr'⟩ := (ih _).mp hr
        exact ⟨.cons hm hr, ⟨ha, hb⟩, hr'⟩
    · rintro ⟨typed, hm', hr'⟩
      cases typed with
      | cons hm hr =>
        exact .cons ((blockTyped_and _ _ _ _).mpr ⟨hm, hm'.block, hm'.arguments⟩) ((ih _).mpr ⟨hr, hr'⟩)

theorem programTyped_and (program : IrProgram) :
    ProgramTyped (r.and r') program ↔ ProgramTyped r program ∧ program.All r' := by
  constructor
  · rintro ⟨distinct, fields, methods, main⟩
    obtain ⟨methods, methods'⟩ := (methodsTyped_and _ _).mp methods
    exact ⟨⟨distinct, fun field h => (fields field h).1, methods, main⟩,
      fun field h => (fields field h).2, methods'⟩
  · rintro ⟨⟨distinct, fields, methods, main⟩, fields', methods'⟩
    exact ⟨distinct, fun field h => ⟨fields field h, fields' field h⟩,
      (methodsTyped_and _ _).mpr ⟨methods, methods'⟩, main⟩

end

end Roast
