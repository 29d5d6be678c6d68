import Roast.Parser.Parser

/-! The grammar of expressions, statements and declarations, with the syntax tree of each derivation. -/
namespace Roast
open TokenType AstNode

structure AstLiteral where
  negation : Option Token
  value : Token

mutual

inductive AstExpression where
  | binary (left : AstExpression) (operator : Token) (right : AstExpression)
  | not (expression : AstExpression)
  | negate (expression : AstExpression)
  | len (identifier : Token)
  | methodCall (identifier : Token) (arguments : AstArguments)
  | literal (literal : AstLiteral)
  | scalar (identifier : Token)
  | element (identifier : Token) (index : AstExpression)

inductive AstArguments where
  | nil
  | string (string : Token) (rest : AstArguments)
  | expression (expression : AstExpression) (rest : AstArguments)

end

def literalNodeType : TokenType → AstNodeType
  | keywordTrue | keywordFalse => .boolLiteral
  | hexLiteral | decimalLiteral => .intLiteral
  | _ => .charLiteral

def AstLiteral.toNode (literal : AstLiteral) : AstNode :=
  inner .literal ((literal.negation.map (leaf .literalNegation)).toList ++
    [leaf (literalNodeType literal.value.type) literal.value])

mutual

def AstExpression.toNode : AstExpression → AstNode
  | .binary left operator right =>
    inner .expression [inner .binaryExpression [left.toNode, leaf .binaryOperator operator, right.toNode]]
  | .not expression => inner .expression [inner .notExpression [expression.toNode]]
  | .negate expression => inner .expression [inner .negateExpression [expression.toNode]]
  | .len name => inner .expression [inner .lenExpression [leaf .identifier name]]
  | .methodCall name arguments =>
    inner .expression [inner .methodCall (leaf .identifier name :: (arguments.toNodes ++ [inner .methodCallEnd []]))]
  | .literal literal => inner .expression [literal.toNode]
  | .scalar name => inner .expression [inner .location [leaf .identifier name]]
  | .element name index =>
    inner .expression [inner .location [leaf .identifier name, inner .locationIndex [index.toNode]]]

def AstArguments.toNodes : AstArguments → List AstNode
  | .nil => []
  | .string string rest => inner .methodCallArgument [leaf .stringLiteral string] :: rest.toNodes
  | .expression expression rest => inner .methodCallArgument [expression.toNode] :: rest.toNodes

end

inductive AstLocation where
  | scalar (identifier : Token)
  | element (identifier : Token) (index : AstExpression)

def AstLocation.toNode : AstLocation → AstNode
  | .scalar name => inner .location [leaf .identifier name]
  | .element name index => inner .location [leaf .identifier name, inner .locationIndex [index.toNode]]

structure AstCall where
  identifier : Token
  arguments : AstArguments

def AstCall.toNode (call : AstCall) : AstNode :=
  inner .methodCall (leaf .identifier call.identifier :: (call.arguments.toNodes ++ [inner .methodCallEnd []]))

inductive AstAssignment where
  | assign (location : AstLocation) (operator : Token) (expression : AstExpression)
  | increment (location : AstLocation) (operator : Token)

def AstAssignment.toNode : AstAssignment → AstNode
  | .assign location operator expression =>
    inner .assignment [location.toNode, leaf .assignOperator operator, expression.toNode]
  | .increment location operator => inner .assignment [location.toNode, leaf .incrementOperator operator]

inductive AstForUpdate where
  | methodCall (call : AstCall)
  | assignment (assignment : AstAssignment)

def AstForUpdate.toNode : AstForUpdate → AstNode
  | .methodCall call => inner .forUpdate [call.toNode]
  | .assignment update => inner .forUpdate [update.toNode]

inductive AstInitializer where
  | scalar (literal : AstLiteral)
  | array (literals : List AstLiteral)

def AstInitializer.toNode : AstInitializer → AstNode
  | .scalar literal => inner .initializer [literal.toNode]
  | .array literals => inner .initializer [inner .arrayLiteral (literals.map AstLiteral.toNode)]

inductive AstLength where
  | none
  | empty
  | literal (length : Token)

def AstLength.toNodes : AstLength → List AstNode
  | .none => []
  | .empty => [inner .emptyArrayLength []]
  | .literal length => [leaf .intLiteral length]

structure AstDeclarator where
  identifier : Token
  length : AstLength
  initializer : Option AstInitializer

def AstDeclarator.toNode (declarator : AstDeclarator) : AstNode :=
  inner .fieldIdentifier (leaf .identifier declarator.identifier ::
    (declarator.length.toNodes ++ (declarator.initializer.map AstInitializer.toNode).toList))

structure AstField where
  constant : Bool
  type : Token
  declarators : List AstDeclarator

def AstField.toNode (field : AstField) : AstNode :=
  inner .field ((if field.constant then [inner .const []] else []) ++
    leaf .dataType field.type :: field.declarators.map AstDeclarator.toNode)

mutual

inductive AstStatement where
  | assignment (assignment : AstAssignment)
  | methodCall (call : AstCall)
  | ifStatement (condition : AstExpression) (ifBlock : AstBlock)
  | ifElseStatement (condition : AstExpression) (ifBlock elseBlock : AstBlock)
  | forStatement (identifier : Token) (initial condition : AstExpression) (update : AstForUpdate) (block : AstBlock)
  | whileStatement (condition : AstExpression) (block : AstBlock)
  | returnStatement (expression : Option AstExpression)
  | breakStatement
  | continueStatement

inductive AstBlock where
  | mk (fields : List AstField) (statements : AstStatements)

inductive AstStatements where
  | nil
  | cons (statement : AstStatement) (rest : AstStatements)

end

mutual

def AstStatement.toChild : AstStatement → AstNode
  | .assignment child => child.toNode
  | .methodCall call => call.toNode
  | .ifStatement condition ifBlock => inner .ifStatement [condition.toNode, ifBlock.toNode]
  | .ifElseStatement condition ifBlock elseBlock =>
    inner .ifStatement [condition.toNode, ifBlock.toNode, elseBlock.toNode]
  | .forStatement name initial condition update block =>
    inner .forStatement [leaf .identifier name, initial.toNode, condition.toNode, update.toNode, block.toNode]
  | .whileStatement condition block => inner .whileStatement [condition.toNode, block.toNode]
  | .returnStatement expression => inner .returnStatement (expression.map AstExpression.toNode).toList
  | .breakStatement => inner .breakStatement []
  | .continueStatement => inner .continueStatement []

def AstBlock.toNode : AstBlock → AstNode
  | .mk fields statements => inner .block (fields.map AstField.toNode ++ statements.toNodes)

def AstStatements.toNodes : AstStatements → List AstNode
  | .nil => []
  | .cons statement rest => inner .statement [statement.toChild] :: rest.toNodes

end

structure AstParameter where
  type : Token
  identifier : Token

def AstParameter.toNode (parameter : AstParameter) : AstNode :=
  inner .methodArgument [leaf .dataType parameter.type, leaf .identifier parameter.identifier]

structure AstMethod where
  type : Token
  identifier : Token
  parameters : List AstParameter
  block : AstBlock

def AstMethod.toNode (method : AstMethod) : AstNode :=
  inner .method ((if method.type.type = keywordVoid then inner .void [] else leaf .dataType method.type) ::
    leaf .identifier method.identifier :: (method.parameters.map AstParameter.toNode ++ [method.block.toNode]))

structure AstProgram where
  imports : List Token
  fields : List AstField
  methods : List AstMethod

def AstProgram.toNode (program : AstProgram) : AstNode :=
  inner .program (program.imports.map (fun name => inner .import [leaf .identifier name]) ++
    program.fields.map AstField.toNode ++ program.methods.map AstMethod.toNode)

inductive Separated {α : Type} (language : List Token → α → Prop) (close : TokenType) : List Token → List α → Prop where
  | last {tokens : List Token} {item : α} {closing : Token} (mem : language tokens item)
      (hclosing : closing.type = close) : Separated language close (tokens ++ [closing]) [item]
  | cons {tokens rest : List Token} {item : α} {items : List α} {separator : Token}
      (mem : language tokens item) (hseparator : separator.type = comma) (others : Separated language close rest items) :
      Separated language close (tokens ++ separator :: rest) (item :: items)

inductive Repeated {α : Type} (language : List Token → α → Prop) : List Token → List α → Prop where
  | nil : Repeated language [] []
  | cons {tokens rest : List Token} {item : α} {items : List α} (mem : language tokens item)
      (others : Repeated language rest items) : Repeated language (tokens ++ rest) (item :: items)

/-- The tokens of a literal that is not an expression's: a `-` may stand before each kind. -/
inductive DerivesLiteral : List Token → AstLiteral → Prop where
  | plain {value : Token} (kind : value.type ∈ BOOL_LITERALS ++ INT_LITERALS ++ [charLiteral]) :
      DerivesLiteral [value] ⟨none, value⟩
  | negated {minus value : Token} (sign : minus.type = sub)
      (kind : value.type ∈ BOOL_LITERALS ++ INT_LITERALS ++ [charLiteral]) :
      DerivesLiteral [minus, value] ⟨some minus, value⟩

def HeadNotIn (types : List TokenType) (tokens : List Token) : Prop := ∀ token ∈ tokens.head?, token.type ∉ types

mutual

/-- Unary forms. A `-` before an integer literal belongs to the literal. -/
inductive DerivesUnary : List Token → AstExpression → Prop where
  | len {keyword opening name closing : Token} (hkeyword : keyword.type = keywordLen)
      (hopening : opening.type = openParenthesis) (hname : name.type = identifier)
      (hclosing : closing.type = closeParenthesis) :
      DerivesUnary [keyword, opening, name, closing] (.len name)
  | not {operator : Token} {tokens : List Token} {expression : AstExpression} (hoperator : operator.type = .not)
      (operand : DerivesUnary tokens expression) : DerivesUnary (operator :: tokens) (.not expression)
  | negate {operator : Token} {tokens : List Token} {expression : AstExpression} (hoperator : operator.type = sub)
      (operand : DerivesUnary tokens expression) (head : HeadNotIn INT_LITERALS tokens) :
      DerivesUnary (operator :: tokens) (.negate expression)
  | literal {value : Token} (kind : value.type ∈ BOOL_LITERALS ++ INT_LITERALS ++ [charLiteral]) :
      DerivesUnary [value] (.literal ⟨none, value⟩)
  | negatedLiteral {minus value : Token} (sign : minus.type = sub) (kind : value.type ∈ INT_LITERALS) :
      DerivesUnary [minus, value] (.literal ⟨some minus, value⟩)
  | call {name opening closing : Token} (hname : name.type = identifier)
      (hopening : opening.type = openParenthesis) (hclosing : closing.type = closeParenthesis) :
      DerivesUnary [name, opening, closing] (.methodCall name .nil)
  | callWith {name opening : Token} {tokens : List Token} {arguments : AstArguments}
      (hname : name.type = identifier) (hopening : opening.type = openParenthesis)
      (operands : DerivesArguments tokens arguments) :
      DerivesUnary (name :: opening :: tokens) (.methodCall name arguments)
  | scalar {name : Token} (hname : name.type = identifier) : DerivesUnary [name] (.scalar name)
  | element {name opening closing : Token} {tokens : List Token} {index : AstExpression}
      (hname : name.type = identifier) (hopening : opening.type = openSquareBracket)
      (operand : DerivesBinary 0 tokens index) (hclosing : closing.type = closeSquareBracket) :
      DerivesUnary (name :: opening :: (tokens ++ [closing])) (.element name index)
  | parenthesis {opening closing : Token} {tokens : List Token} {expression : AstExpression}
      (hopening : opening.type = openParenthesis) (operand : DerivesBinary 0 tokens expression)
      (hclosing : closing.type = closeParenthesis) : DerivesUnary (opening :: (tokens ++ [closing])) expression

/-- Expressions whose binary operators outside brackets have at least the precedence `level`. A right operand's
have more than its operator's, so that operators of one precedence associate to the left. -/
inductive DerivesBinary : Nat → List Token → AstExpression → Prop where
  | unary {level : Nat} {tokens : List Token} {expression : AstExpression}
      (operand : DerivesUnary tokens expression) : DerivesBinary level tokens expression
  | binary {level : Nat} {operator : Token} {first second : List Token} {left right : AstExpression}
      (hoperator : operator.type ∈ BINARY_OPERATORS) (hlevel : level ≤ precedence operator.type)
      (hleft : DerivesBinary (precedence operator.type) first left)
      (hright : DerivesBinary (precedence operator.type + 1) second right) :
      DerivesBinary level (first ++ operator :: second) (.binary left operator right)

inductive DerivesArguments : List Token → AstArguments → Prop where
  | lastString {string closing : Token} (hstring : string.type = stringLiteral)
      (hclosing : closing.type = closeParenthesis) : DerivesArguments [string, closing] (.string string .nil)
  | lastExpression {closing : Token} {tokens : List Token} {expression : AstExpression}
      (operand : DerivesBinary 0 tokens expression) (hclosing : closing.type = closeParenthesis) :
      DerivesArguments (tokens ++ [closing]) (.expression expression .nil)
  | string {string separator : Token} {rest : List Token} {arguments : AstArguments}
      (hstring : string.type = stringLiteral) (hseparator : separator.type = comma)
      (operands : DerivesArguments rest arguments) :
      DerivesArguments (string :: separator :: rest) (.string string arguments)
  | expression {separator : Token} {tokens rest : List Token} {expression : AstExpression} {arguments : AstArguments}
      (operand : DerivesBinary 0 tokens expression) (hseparator : separator.type = comma)
      (operands : DerivesArguments rest arguments) :
      DerivesArguments (tokens ++ separator :: rest) (.expression expression arguments)

end

abbrev DerivesExpression (tokens : List Token) (expression : AstExpression) : Prop := DerivesBinary 0 tokens expression

inductive DerivesLocation : List Token → AstLocation → Prop where
  | scalar {name : Token} (hname : name.type = identifier) : DerivesLocation [name] (.scalar name)
  | element {name opening closing : Token} {tokens : List Token} {index : AstExpression}
      (hname : name.type = identifier) (hopening : opening.type = openSquareBracket)
      (operand : DerivesExpression tokens index) (hclosing : closing.type = closeSquareBracket) :
      DerivesLocation (name :: opening :: (tokens ++ [closing])) (.element name index)

inductive DerivesCall : List Token → AstCall → Prop where
  | empty {name opening closing : Token} (hname : name.type = identifier) (hopening : opening.type = openParenthesis)
      (hclosing : closing.type = closeParenthesis) : DerivesCall [name, opening, closing] ⟨name, .nil⟩
  | arguments {name opening : Token} {tokens : List Token} {arguments : AstArguments} (hname : name.type = identifier)
      (hopening : opening.type = openParenthesis) (operands : DerivesArguments tokens arguments) :
      DerivesCall (name :: opening :: tokens) ⟨name, arguments⟩

inductive DerivesInitializer : List Token → AstInitializer → Prop where
  | scalar {tokens : List Token} {literal : AstLiteral} (hliteral : DerivesLiteral tokens literal) :
      DerivesInitializer tokens (.scalar literal)
  | array {opening : Token} {tokens : List Token} {literals : List AstLiteral} (hopening : opening.type = openCurlyBracket)
      (hliterals : Separated DerivesLiteral closeCurlyBracket tokens literals) :
      DerivesInitializer (opening :: tokens) (.array literals)

inductive DerivesLength : List Token → AstLength → Prop where
  | none : DerivesLength [] .none
  | empty {opening closing : Token} (hopening : opening.type = openSquareBracket)
      (hclosing : closing.type = closeSquareBracket) : DerivesLength [opening, closing] .empty
  | literal {opening length closing : Token} (hopening : opening.type = openSquareBracket)
      (hlength : length.type ∈ INT_LITERALS) (hclosing : closing.type = closeSquareBracket) :
      DerivesLength [opening, length, closing] (.literal length)

inductive DerivesDeclarator : List Token → AstDeclarator → Prop where
  | plain {name : Token} {tokens : List Token} {length : AstLength} (hname : name.type = identifier)
      (hlength : DerivesLength tokens length) : DerivesDeclarator (name :: tokens) ⟨name, length, none⟩
  | initialized {name equals : Token} {tokens rest : List Token} {length : AstLength} {initializer : AstInitializer}
      (hname : name.type = identifier) (hlength : DerivesLength tokens length) (hequals : equals.type = assign)
      (hinitializer : DerivesInitializer rest initializer) :
      DerivesDeclarator (name :: (tokens ++ equals :: rest)) ⟨name, length, some initializer⟩

inductive DerivesField : List Token → AstField → Prop where
  | ordinary {type : Token} {tokens : List Token} {declarators : List AstDeclarator} (htype : type.type ∈ TYPES)
      (hdeclarators : Separated DerivesDeclarator semicolon tokens declarators) :
      DerivesField (type :: tokens) ⟨false, type, declarators⟩
  | constant {keyword type : Token} {tokens : List Token} {declarators : List AstDeclarator}
      (hkeyword : keyword.type = keywordConst) (htype : type.type ∈ TYPES)
      (hdeclarators : Separated DerivesDeclarator semicolon tokens declarators) :
      DerivesField (keyword :: type :: tokens) ⟨true, type, declarators⟩

inductive DerivesAssignment : List Token → AstAssignment → Prop where
  | assign {operator : Token} {tokens rest : List Token} {location : AstLocation} {expression : AstExpression}
      (hlocation : DerivesLocation tokens location) (hoperator : operator.type ∈ ASSIGN_OPERATORS)
      (hexpression : DerivesExpression rest expression) :
      DerivesAssignment (tokens ++ operator :: rest) (.assign location operator expression)
  | increment {operator : Token} {tokens : List Token} {location : AstLocation}
      (hlocation : DerivesLocation tokens location) (hoperator : operator.type ∈ INCREMENT_OPERATORS) :
      DerivesAssignment (tokens ++ [operator]) (.increment location operator)

inductive DerivesForUpdate : List Token → AstForUpdate → Prop where
  | methodCall {tokens : List Token} {call : AstCall} (hcall : DerivesCall tokens call) :
      DerivesForUpdate tokens (.methodCall call)
  | assignment {tokens : List Token} {assignment : AstAssignment} (hassignment : DerivesAssignment tokens assignment) :
      DerivesForUpdate tokens (.assignment assignment)

inductive DerivesCondition (keyword : TokenType) : List Token → AstExpression → Prop where
  | mk {first opening closing : Token} {tokens : List Token} {condition : AstExpression} (hfirst : first.type = keyword)
      (hopening : opening.type = openParenthesis) (hcondition : DerivesExpression tokens condition)
      (hclosing : closing.type = closeParenthesis) :
      DerivesCondition keyword (first :: opening :: (tokens ++ [closing])) condition

inductive DerivesFor : List Token → Token → AstExpression → AstExpression → AstForUpdate → Prop where
  | mk {keyword opening name equals first second closing : Token} {tokens tokens' rest : List Token}
      {initial condition : AstExpression} {update : AstForUpdate} (hkeyword : keyword.type = keywordFor)
      (hopening : opening.type = openParenthesis) (hname : name.type = identifier) (hequals : equals.type = assign)
      (hinitial : DerivesExpression tokens initial) (hfirst : first.type = semicolon)
      (hcondition : DerivesExpression tokens' condition) (hsecond : second.type = semicolon)
      (hupdate : DerivesForUpdate rest update) (hclosing : closing.type = closeParenthesis) :
      DerivesFor (keyword :: opening :: name :: equals :: (tokens ++ first :: (tokens' ++ second :: (rest ++ [closing]))))
        name initial condition update

mutual

inductive DerivesStatement : List Token → AstStatement → Prop where
  | assignment {closing : Token} {tokens : List Token} {assignment : AstAssignment}
      (hassignment : DerivesAssignment tokens assignment) (hclosing : closing.type = semicolon) :
      DerivesStatement (tokens ++ [closing]) (.assignment assignment)
  | methodCall {closing : Token} {tokens : List Token} {call : AstCall} (hcall : DerivesCall tokens call)
      (hclosing : closing.type = semicolon) : DerivesStatement (tokens ++ [closing]) (.methodCall call)
  | ifStatement {tokens rest : List Token} {condition : AstExpression} {ifBlock : AstBlock}
      (hcondition : DerivesCondition keywordIf tokens condition) (hblock : DerivesBlock rest ifBlock) :
      DerivesStatement (tokens ++ rest) (.ifStatement condition ifBlock)
  | ifElseStatement {keyword : Token} {tokens rest rest' : List Token} {condition : AstExpression}
      {ifBlock elseBlock : AstBlock} (hcondition : DerivesCondition keywordIf tokens condition)
      (hblock : DerivesBlock rest ifBlock) (hkeyword : keyword.type = keywordElse)
      (helse : DerivesBlock rest' elseBlock) :
      DerivesStatement (tokens ++ (rest ++ keyword :: rest')) (.ifElseStatement condition ifBlock elseBlock)
  | forStatement {name : Token} {tokens rest : List Token} {initial condition : AstExpression} {update : AstForUpdate}
      {block : AstBlock} (hfor : DerivesFor tokens name initial condition update) (hblock : DerivesBlock rest block) :
      DerivesStatement (tokens ++ rest) (.forStatement name initial condition update block)
  | whileStatement {tokens rest : List Token} {condition : AstExpression} {block : AstBlock}
      (hcondition : DerivesCondition keywordWhile tokens condition) (hblock : DerivesBlock rest block) :
      DerivesStatement (tokens ++ rest) (.whileStatement condition block)
  | returnStatement {keyword closing : Token} (hkeyword : keyword.type = keywordReturn)
      (hclosing : closing.type = semicolon) : DerivesStatement [keyword, closing] (.returnStatement none)
  | returnExpression {keyword closing : Token} {tokens : List Token} {expression : AstExpression}
      (hkeyword : keyword.type = keywordReturn) (hexpression : DerivesExpression tokens expression)
      (hclosing : closing.type = semicolon) :
      DerivesStatement (keyword :: (tokens ++ [closing])) (.returnStatement (some expression))
  | breakStatement {keyword closing : Token} (hkeyword : keyword.type = keywordBreak)
      (hclosing : closing.type = semicolon) : DerivesStatement [keyword, closing] .breakStatement
  | continueStatement {keyword closing : Token} (hkeyword : keyword.type = keywordContinue)
      (hclosing : closing.type = semicolon) : DerivesStatement [keyword, closing] .continueStatement

inductive DerivesBlock : List Token → AstBlock → Prop where
  | mk {opening closing : Token} {tokens rest : List Token} {fields : List AstField} {statements : AstStatements}
      (hopening : opening.type = openCurlyBracket) (hfields : Repeated DerivesField tokens fields)
      (hstatements : DerivesStatements rest statements) (hclosing : closing.type = closeCurlyBracket) :
      DerivesBlock (opening :: (tokens ++ (rest ++ [closing]))) (.mk fields statements)

inductive DerivesStatements : List Token → AstStatements → Prop where
  | nil : DerivesStatements [] .nil
  | cons {tokens rest : List Token} {statement : AstStatement} {statements : AstStatements}
      (hstatement : DerivesStatement tokens statement) (hstatements : DerivesStatements rest statements) :
      DerivesStatements (tokens ++ rest) (.cons statement statements)

end

/-- Parameters with the parenthesis that closes them. Where `missing` holds, the comma between two parameters may be
left out. -/
inductive DerivesParameters (missing : Prop) : List Token → List AstParameter → Prop where
  | last {type name closing : Token} (htype : type.type ∈ TYPES) (hname : name.type = identifier)
      (hclosing : closing.type = closeParenthesis) : DerivesParameters missing [type, name, closing] [⟨type, name⟩]
  | comma {type name separator : Token} {rest : List Token} {parameters : List AstParameter}
      (htype : type.type ∈ TYPES) (hname : name.type = identifier) (hseparator : separator.type = comma)
      (others : DerivesParameters missing rest parameters) :
      DerivesParameters missing (type :: name :: separator :: rest) (⟨type, name⟩ :: parameters)
  | missing {type name : Token} {rest : List Token} {parameters : List AstParameter} (hmissing : missing)
      (htype : type.type ∈ TYPES) (hname : name.type = identifier)
      (others : DerivesParameters missing rest parameters) :
      DerivesParameters missing (type :: name :: rest) (⟨type, name⟩ :: parameters)

inductive DerivesMethod (missing : Prop) : List Token → AstMethod → Prop where
  | empty {type name opening closing : Token} {tokens : List Token} {block : AstBlock}
      (htype : type.type ∈ keywordVoid :: TYPES) (hname : name.type = identifier)
      (hopening : opening.type = openParenthesis) (hclosing : closing.type = closeParenthesis)
      (hblock : DerivesBlock tokens block) :
      DerivesMethod missing (type :: name :: opening :: closing :: tokens) ⟨type, name, [], block⟩
  | parameters {type name opening : Token} {tokens rest : List Token} {parameters : List AstParameter} {block : AstBlock}
      (htype : type.type ∈ keywordVoid :: TYPES) (hname : name.type = identifier)
      (hopening : opening.type = openParenthesis) (hparameters : DerivesParameters missing tokens parameters)
      (hblock : DerivesBlock rest block) :
      DerivesMethod missing (type :: name :: opening :: (tokens ++ rest)) ⟨type, name, parameters, block⟩

inductive DerivesImport : List Token → Token → Prop where
  | mk {keyword name closing : Token} (hkeyword : keyword.type = keywordImport) (hname : name.type = identifier)
      (hclosing : closing.type = semicolon) : DerivesImport [keyword, name, closing] name

inductive DerivesProgram (missing : Prop) : List Token → AstProgram → Prop where
  | mk {imports fields methods : List Token} {names : List Token} {declared : List AstField} {defined : List AstMethod}
      (himports : Repeated DerivesImport imports names) (hfields : Repeated DerivesField fields declared)
      (hmethods : Repeated (DerivesMethod missing) methods defined) :
      DerivesProgram missing (imports ++ (fields ++ methods)) ⟨names, declared, defined⟩

end Roast
