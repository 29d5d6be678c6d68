import Roast.Semantics.Semantics

/-! The declarative type system of the language. It does not mention the checker's state: a context lists
the visible scopes, innermost first, and the methods declared so far. -/
namespace Roast

/-- What the rules ask of an integer literal and of a field's length and initializer. -/
structure Rules where
  literal : IrLiteral → Prop
  field : IrField → Prop

structure Context where
  scopes : List (List IrField)
  methods : List IrMethod

namespace Context

def field (c : Context) (identifier : String) : Option IrField :=
  c.scopes.findSome? (fun scope => scope.find? (fun field => field.identifier == identifier))

def method (c : Context) (identifier : String) : Option IrMethod :=
  c.methods.find? (fun method => method.identifier == identifier)

def enter (c : Context) (scope : List IrField) : Context :=
  { c with scopes := scope :: c.scopes }

end Context

inductive OperatorTyped : IrBinaryOperator → IrDataType → IrDataType → Prop where
  | arithmetic {operator} (h : operator ∈ [.add, .sub, .mul, .div, .mod]) : OperatorTyped operator .int .int
  | order {operator} (h : operator ∈ [.less, .lessEqual, .greaterEqual, .greater]) :
    OperatorTyped operator .int .bool
  | logical {operator} (h : operator ∈ [.or, .and]) : OperatorTyped operator .bool .bool
  | equality {operator type} (h : operator ∈ [.equal, .notEqual]) (scalar : type.isArray = false) :
    OperatorTyped operator type .bool

mutual

inductive ExpressionTyped (r : Rules) (c : Context) : IrExpression → IrDataType → Prop where
  | binary {operator left right operand result} (op : OperatorTyped operator operand result)
    (hl : ExpressionTyped r c left operand) (hr : ExpressionTyped r c right operand) :
    ExpressionTyped r c (.binary operator left right) result
  | not {expression} (h : ExpressionTyped r c expression .bool) : ExpressionTyped r c (.not expression) .bool
  | negate {expression} (h : ExpressionTyped r c expression .int) :
    ExpressionTyped r c (.negate expression) .int
  | len {identifier length field} (found : c.field identifier = some field)
    (array : field.type.isArray = true) : ExpressionTyped r c (.len identifier length) .int
  | methodCall {identifier arguments type} (h : CallTyped r c identifier arguments type)
    (value : type ≠ .void) : ExpressionTyped r c (.methodCall identifier arguments) type
  | literal {literal} (h : r.literal literal) : ExpressionTyped r c (.literal literal) literal.type.dataType
  | location {location field type} (h : LocationTyped r c location field type) :
    ExpressionTyped r c (.location location) type

/-- The location resolves to `field` and has the given type. -/
inductive LocationTyped (r : Rules) (c : Context) : IrLocation → IrField → IrDataType → Prop where
  | scalar {node identifier field} (found : c.field identifier = some field) :
    LocationTyped r c (.scalar node identifier) field field.type
  | element {node identifier index field} (found : c.field identifier = some field)
    (array : field.type.isArray = true) (h : ExpressionTyped r c index .int) :
    LocationTyped r c (.element node identifier index) field field.type.element

/-- A called name denotes a method and no visible field. -/
inductive CallTyped (r : Rules) (c : Context) : String → IrArguments → IrDataType → Prop where
  | imported {identifier arguments method} (unshadowed : c.field identifier = none)
    (found : c.method identifier = some method) (imported : method.imported = true)
    (h : ImportedArgumentsTyped r c arguments) : CallTyped r c identifier arguments method.returnType
  | declared {identifier arguments method} (unshadowed : c.field identifier = none)
    (found : c.method identifier = some method) (declared : method.imported = false)
    (h : ArgumentsTyped r c method.arguments arguments) :
    CallTyped r c identifier arguments method.returnType

inductive ImportedArgumentsTyped (r : Rules) (c : Context) : IrArguments → Prop where
  | nil : ImportedArgumentsTyped r c .nil
  | string {string rest} (h : ImportedArgumentsTyped r c rest) :
    ImportedArgumentsTyped r c (.string string rest)
  | expression {expression type rest} (he : ExpressionTyped r c expression type)
    (h : ImportedArgumentsTyped r c rest) : ImportedArgumentsTyped r c (.expression expression rest)

inductive ArgumentsTyped (r : Rules) (c : Context) : List IrField → IrArguments → Prop where
  | nil : ArgumentsTyped r c [] .nil
  | expression {field fields expression rest} (he : ExpressionTyped r c expression field.type)
    (h : ArgumentsTyped r c fields rest) : ArgumentsTyped r c (field :: fields) (.expression expression rest)

end

/-- The assigned location is a scalar or an element, is not constant, is an int for the compound
operators, and the right side has its type. -/
structure AssignmentTyped (r : Rules) (c : Context) (assignment : IrAssignment) : Prop where
  location : ∃ field type, LocationTyped r c assignment.location field type ∧
    field.constant = false ∧ type.isArray = false ∧
    (assignment.assignOperator ≠ .set → type = .int) ∧
    ∀ expression, assignment.expression = some expression → ExpressionTyped r c expression type

inductive ForUpdateTyped (r : Rules) (c : Context) : IrForUpdate → Prop where
  | methodCall {identifier arguments type} (h : CallTyped r c identifier arguments type) :
    ForUpdateTyped r c (.methodCall identifier arguments)
  | assignment {assignment} (h : AssignmentTyped r c assignment) : ForUpdateTyped r c (.assignment assignment)

inductive ReturnTyped (r : Rules) (c : Context) (returnType : IrDataType) : Option IrExpression → Prop where
  | none (h : returnType = .void) : ReturnTyped r c returnType none
  | some {expression} (h : ExpressionTyped r c expression returnType) :
    ReturnTyped r c returnType (some expression)

structure ScopeTyped (r : Rules) (fields : List IrField) : Prop where
  distinct : (fields.map IrField.identifier).Nodup
  field : ∀ field ∈ fields, r.field field

mutual

inductive StatementTyped (r : Rules) (returnType : IrDataType) : Context → Prop → IrStatement → Prop where
  | assignment {c inLoop assignment} (h : AssignmentTyped r c assignment) :
    StatementTyped r returnType c inLoop (.assignment assignment)
  | methodCall {c inLoop identifier arguments type} (h : CallTyped r c identifier arguments type) :
    StatementTyped r returnType c inLoop (.methodCall identifier arguments)
  | ifStatement {c inLoop condition ifBlock} (hc : ExpressionTyped r c condition .bool)
    (hb : BlockTyped r returnType c inLoop [] ifBlock) :
    StatementTyped r returnType c inLoop (.ifStatement condition ifBlock)
  | ifElseStatement {c inLoop condition ifBlock elseBlock} (hc : ExpressionTyped r c condition .bool)
    (hb : BlockTyped r returnType c inLoop [] ifBlock) (he : BlockTyped r returnType c inLoop [] elseBlock) :
    StatementTyped r returnType c inLoop (.ifElseStatement condition ifBlock elseBlock)
  | forStatement {c inLoop initial condition update block} (hi : AssignmentTyped r c initial)
    (hc : ExpressionTyped r c condition .bool) (hu : ForUpdateTyped r c update)
    (hb : BlockTyped r returnType c True [] block) :
    StatementTyped r returnType c inLoop (.forStatement initial condition update block)
  | whileStatement {c inLoop condition block} (hc : ExpressionTyped r c condition .bool)
    (hb : BlockTyped r returnType c True [] block) :
    StatementTyped r returnType c inLoop (.whileStatement condition block)
  | returnStatement {c inLoop expression} (h : ReturnTyped r c returnType expression) :
    StatementTyped r returnType c inLoop (.returnStatement expression)
  | breakStatement {c inLoop} (h : inLoop) : StatementTyped r returnType c inLoop .breakStatement
  | continueStatement {c inLoop} (h : inLoop) : StatementTyped r returnType c inLoop .continueStatement

/-- `initial` are the parameters when the block is the outermost one of a method. -/
inductive BlockTyped (r : Rules) (returnType : IrDataType) :
    Context → Prop → List IrField → IrBlock → Prop where
  | mk {c inLoop initial fields statements} (scope : ScopeTyped r (initial ++ fields))
    (h : StatementsTyped r returnType (c.enter ((initial ++ fields).map IrField.analyzed)) inLoop
      statements) :
    BlockTyped r returnType c inLoop initial (.mk fields statements)

inductive StatementsTyped (r : Rules) (returnType : IrDataType) :
    Context → Prop → IrStatements → Prop where
  | nil {c inLoop} : StatementsTyped r returnType c inLoop .nil
  | cons {c inLoop statement rest} (hs : StatementTyped r returnType c inLoop statement)
    (hr : StatementsTyped r returnType c inLoop rest) :
    StatementsTyped r returnType c inLoop (.cons statement rest)

end

/-- Methods in order: each sees the imports, itself and the methods before it. -/
inductive MethodsTyped (r : Rules) : Context → List IrMethod → Prop where
  | nil {c} : MethodsTyped r c []
  | cons {c method rest}
    (hm : BlockTyped r method.returnType { c with methods := c.methods ++ [method] } False
      method.arguments method.block)
    (hr : MethodsTyped r { c with methods := c.methods ++ [method] } rest) :
    MethodsTyped r c (method :: rest)

def IrProgram.names (program : IrProgram) : List String :=
  program.imports.map IrMethod.identifier ++ program.fields.map IrField.identifier ++
    program.methods.map IrMethod.identifier

structure ProgramTyped (r : Rules) (program : IrProgram) : Prop where
  distinct : program.names.Nodup
  fields : ∀ field ∈ program.fields, r.field field
  methods : MethodsTyped r ⟨[program.fields.map IrField.analyzed], program.imports⟩ program.methods
  main : ∃ method ∈ program.methods,
    method.identifier = "main" ∧ method.returnType = .void ∧ method.arguments = []

end Roast
