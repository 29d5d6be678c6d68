import Roast.Parser.Ast

/-! The parser, `parser.c`. Its functions report an error and go on; a function that returns `NULL` returns `none`.
The recursive functions take a bound `n` on the depth of their recursion. -/
namespace Roast
open TokenType

/-- `struct parser`: the tokens from the position on and the messages of `parse_error`. -/
structure Parser where
  tokens : List Token
  errors : List String

abbrev Parsed := Option AstNode × Parser

def BOOL_LITERALS : List TokenType := [keywordTrue, keywordFalse]

def INT_LITERALS : List TokenType := [hexLiteral, decimalLiteral]

def TYPES : List TokenType := [keywordInt, keywordBool]

def BINARY_OPERATORS : List TokenType :=
  [or, and, equal, notEqual, less, lessEqual, greaterEqual, greater, add, sub, mul, div, mod]

def ASSIGN_OPERATORS : List TokenType := [assign, addAssign, subAssign, mulAssign, divAssign, modAssign]

def INCREMENT_OPERATORS : List TokenType := [increment, decrement]

def KEYWORDS : List TokenType :=
  [keywordBool, keywordBreak, keywordConst, keywordContinue, keywordElse, keywordFalse, keywordFor, keywordIf,
    keywordImport, keywordInt, keywordLen, keywordReturn, keywordTrue, keywordVoid, keywordWhile]

def precedence : TokenType → Nat
  | .and => 1
  | equal | notEqual => 2
  | less | lessEqual | greaterEqual | greater => 3
  | add | sub => 4
  | mul | div | mod => 5
  | _ => 0

namespace Parser

def nextToken (type : TokenType) (p : Parser) : Option (Token × Parser) :=
  match p.tokens with
  | [] => none
  | token :: rest => if token.type = type then some (token, { p with tokens := rest }) else none

def nextTokenInTable (table : List TokenType) (p : Parser) : Option (Token × Parser) :=
  table.findSome? fun type => p.nextToken type

/-- `peek_token`: the type of the token at a position relative to the current one. The sum of the two is a `uint32_t`, which
does not wrap in lists of less than 2^31 tokens (`peekIndex_eq`). -/
def peekToken (i : Nat) (type : TokenType) (p : Parser) : Bool := p.tokens[i]?.any (·.type == type)

def parseError (message : String) (p : Parser) : Parser := { p with errors := p.errors ++ [message] }

/-- `if (!next_token(parser, type, NULL)) parse_error(parser, message)` -/
def expectToken (type : TokenType) (message : String) (p : Parser) : Parser :=
  match p.nextToken type with
  | some (_, p) => p
  | none => p.parseError message

/-- `if (parser->position != expected) { parse_error(parser, message); parser->position = expected; }`, where a
position is told by the tokens that remain there. -/
def moveTo (expected : List Token) (message : String) (p : Parser) : Parser :=
  if p.tokens.length ≠ expected.length then { p.parseError message with tokens := expected } else p

end Parser

namespace Parsed

/-- `if (node == NULL) parse_error(parser, message)` -/
def require (message : String) : Parsed → Parsed
  | (none, p) => (none, p.parseError message)
  | (some node, p) => (some node, p)

/-- The next alternative of a chain `if ((child = …)) {} else if ((child = …)) {}`. -/
def orElse (parsed : Parsed) (next : Parser → Parsed) : Parsed :=
  match parsed with
  | (none, p) => next p
  | (some node, p) => (some node, p)

def wrap (build : AstNode → AstNode) : Parsed → Parsed
  | (none, p) => (none, p)
  | (some node, p) => (some (build node), p)

end Parsed

open AstNode

def parseTable (table : List TokenType) (type : AstNodeType) (p : Parser) : Parsed :=
  match p.nextTokenInTable table with
  | some (token, p) => (some (leaf type token), p)
  | none => (none, p)

def parseIdentifier (p : Parser) : Parsed :=
  match p.nextTokenInTable KEYWORDS with
  | some (token, p) => (some (leaf .identifier token), p.parseError "Keyword cannot be used as identifier")
  | none => parseTable [identifier] .identifier p

def parseCharLiteral : Parser → Parsed := parseTable [charLiteral] .charLiteral

def parseStringLiteral : Parser → Parsed := parseTable [stringLiteral] .stringLiteral

def parseBoolLiteral : Parser → Parsed := parseTable BOOL_LITERALS .boolLiteral

def parseIntLiteral : Parser → Parsed := parseTable INT_LITERALS .intLiteral

def parseType (p : Parser) : Parsed :=
  match p.nextToken keywordVoid with
  | some (token, p) => (some (leaf .dataType token), p.parseError "void type not permitted here")
  | none => parseTable TYPES .dataType p

def parseBinaryOperator : Parser → Parsed := parseTable BINARY_OPERATORS .binaryOperator

def parseIncrementOperator : Parser → Parsed := parseTable INCREMENT_OPERATORS .incrementOperator

def parseAssignOperator : Parser → Parsed := parseTable ASSIGN_OPERATORS .assignOperator

def parseLiteralNegation : Parser → Parsed := parseTable [sub] .literalNegation

def parseLiteral (p : Parser) : Parsed :=
  let negation := parseLiteralNegation p
  match (parseBoolLiteral negation.2).orElse fun p => (parseIntLiteral p).orElse parseCharLiteral with
  | (some child, p) => (some (inner .literal (negation.1.toList ++ [child])), p)
  | (none, p) =>
    match parseStringLiteral p with
    | (some child, p) =>
      (some (inner .literal (negation.1.toList ++ [child])), p.parseError "String literal not permitted here")
    | (none, p) =>
      if negation.1.isSome then
        (some (inner .literal negation.1.toList), p.parseError "Expected literal after negation")
      else (none, p)

/-- The loop over items between commas, with the token that closes it: `parse_array_literal`,
`parse_method_call` and `parse_field`. -/
def parseSeparated (item : Parser → Parsed) (itemMessage : String) (close : TokenType) (closeMessage : String) :
    Nat → List AstNode → Parser → List AstNode × Parser
  | 0, children, p => (children, p.parseError closeMessage)
  | n + 1, children, p =>
    let child := (item p).require itemMessage
    match child.2.nextToken comma with
    | some (_, p) => parseSeparated item itemMessage close closeMessage n (children ++ child.1.toList) p
    | none => (children ++ child.1.toList, child.2.expectToken close closeMessage)

def parseArrayLiteral (n : Nat) (p : Parser) : Parsed :=
  match p.nextToken openCurlyBracket with
  | none => (none, p)
  | some (_, p) =>
    let array := parseSeparated parseLiteral "Expected literal in array literal" closeCurlyBracket
      "Expected closing brace or comma in array literal" n [] p
    (some (inner .arrayLiteral array.1), array.2)

def parseInitializer (n : Nat) (p : Parser) : Parsed :=
  ((parseArrayLiteral n p).orElse parseLiteral).wrap fun child => inner .initializer [child]

/-- `is_binary_operator` at a token; `previous` is the token before it, `none` at index 0. -/
def isBinaryOperator (previous : Option TokenType) (type : TokenType) : Bool :=
  match type, previous with
  | sub, none => false
  | sub, some previous => !(BINARY_OPERATORS.contains previous || previous == .not)
  | type, _ => BINARY_OPERATORS.contains type

def isTerminator (type : TokenType) : Bool :=
  [closeParenthesis, closeSquareBracket, semicolon, comma].contains type

def depthAfter (depth : Nat) : TokenType → Nat
  | openParenthesis | openSquareBracket => depth + 1
  | closeParenthesis | closeSquareBracket => depth - 1
  | _ => depth

/-- The loop of `find_binary_operator_indices` over the tokens from index `i` on. Past the last token every
`peek_token` fails, so that the loop finds nothing more. -/
def findOperators : Nat → Nat → Option TokenType → List Token → List (Nat × TokenType)
  | _, _, _, [] => []
  | depth, i, previous, token :: rest =>
    if depth = 0 ∧ isTerminator token.type then []
    else
      let depth := depthAfter depth token.type
      let indices := findOperators depth (i + 1) (some token.type) rest
      if depth = 0 ∧ isBinaryOperator previous token.type then (i, token.type) :: indices else indices

/-- The tokens at an index below `length`; `none` is `(uint32_t)-1`. -/
def window (length : Option Nat) (tokens : List Token) : List Token :=
  match length with
  | none => tokens
  | some length => tokens.take length

def findBinaryOperatorIndices (length : Option Nat) (p : Parser) : List (Nat × TokenType) :=
  findOperators 0 0 none (window length p.tokens)

def lowestPrecedence : List (Nat × TokenType) → Nat × Nat → Nat × Nat
  | [], lowest => lowest
  | (index, type) :: rest, lowest =>
    lowestPrecedence rest (if precedence type ≤ lowest.2 then (index, precedence type) else lowest)

def getLowestPrecedenceIndex (indices : List (Nat × TokenType)) : Nat := (lowestPrecedence indices (0, 2 ^ 32 - 1)).1

-- `expression` and `unary` stand for `parse_expression` and `parse_unary_expression`, below.

section
variable (expression unary : Parser → Parsed)

def parseMethodCallArgument (p : Parser) : Parsed :=
  ((parseStringLiteral p).orElse expression).wrap fun child => inner .methodCallArgument [child]

def parseMethodCall (n : Nat) (p : Parser) : Parsed :=
  if p.peekToken 0 identifier && p.peekToken 1 openParenthesis then
    let identifier := parseIdentifier p
    let p := match identifier.2.nextToken openParenthesis with
      | some (_, p) => p
      | none => identifier.2
    match p.nextToken closeParenthesis with
    | some (_, p) => (some (inner .methodCall (identifier.1.toList ++ [inner .methodCallEnd []])), p)
    | none =>
      let call := parseSeparated (parseMethodCallArgument expression) "Expected argument in method call"
        closeParenthesis "Expected comma or closing parenthesis in method call" n identifier.1.toList p
      (some (inner .methodCall (call.1 ++ [inner .methodCallEnd []])), call.2)
  else (none, p)

def parseParenthesisExpression (p : Parser) : Parsed :=
  match p.nextToken openParenthesis with
  | none => (none, p)
  | some (_, p) =>
    let child := (expression p).require "Expected expresion in parenthesis"
    (child.1, child.2.expectToken closeParenthesis "Expected closing parenthesis in expression")

def parseNotExpression (p : Parser) : Parsed :=
  match p.nextToken .not with
  | none => (none, p)
  | some (_, p) =>
    let child := (unary p).require "Expected expression after not operator"
    (some (inner .notExpression child.1.toList), child.2)

def parseNegateExpression (p : Parser) : Parsed :=
  if p.peekToken 0 sub && (p.peekToken 1 hexLiteral || p.peekToken 1 decimalLiteral) then (none, p)
  else
    match p.nextToken sub with
    | none => (none, p)
    | some (_, p) =>
      let child := (unary p).require "Expected expression after negate operator"
      (some (inner .negateExpression child.1.toList), child.2)

def parseLenExpression (p : Parser) : Parsed :=
  match p.nextToken keywordLen with
  | none => (none, p)
  | some (_, p) =>
    let p := p.expectToken openParenthesis "Expected open parenthesis in len expression"
    let identifier := (parseIdentifier p).require "Expected identifier in len expression"
    (some (inner .lenExpression identifier.1.toList),
      identifier.2.expectToken closeParenthesis "Expected closing parenthesis in len expression")

def parseLocation (p : Parser) : Parsed :=
  match parseIdentifier p with
  | (none, p) => (none, p)
  | (some name, p) =>
    match p.nextToken openSquareBracket with
    | none => (some (inner .location [name]), p)
    | some (_, p) =>
      let index := (expression p).require "Expected expression in identifier index"
      (some (inner .location [name, inner .locationIndex index.1.toList]),
        index.2.expectToken closeSquareBracket "Expected closing square bracket in index expression")

end

/-- `parse_binary_expression`; `parse` stands for `parse_expression_with_length`. -/
def parseBinaryExpression (parse : Option Nat → Parser → Parsed) (length : Option Nat) (p : Parser) : Parsed :=
  match findBinaryOperatorIndices length p with
  | [] => (none, p)
  | index :: indices =>
    let operatorIndex := getLowestPrecedenceIndex (index :: indices)
    let expected := p.tokens.drop operatorIndex
    let left := (parse (some operatorIndex) p).require "Expected expression before operator"
    let operator := parseBinaryOperator (left.2.moveTo expected "Expected binary operator in expression")
    let right := (parse (length.map (· - (operatorIndex + 1))) operator.2).require
      "Expected expression after operator"
    (some (inner .binaryExpression (left.1.toList ++ operator.1.toList ++ right.1.toList)), right.2)

mutual

def parseUnaryExpression : Nat → Parser → Parsed
  | 0, p => (none, p.parseError "")
  | n + 1, p =>
    let expression := parseExpressionWithLength n none
    let child := (parseLenExpression p).orElse fun p => (parseNotExpression (parseUnaryExpression n) p).orElse fun p =>
      (parseNegateExpression (parseUnaryExpression n) p).orElse fun p => (parseLiteral p).orElse fun p =>
      (parseMethodCall expression n p).orElse (parseLocation expression)
    (child.wrap fun child => inner .expression [child]).orElse (parseParenthesisExpression expression)

def parseExpressionWithLength : Nat → Option Nat → Parser → Parsed
  | 0, _, p => (none, p.parseError "")
  | n + 1, length, p =>
    ((parseBinaryExpression (parseExpressionWithLength n) length p).wrap fun child => inner .expression [child]).orElse
      (parseUnaryExpression n)

end

def parseExpression (n : Nat) : Parser → Parsed := parseExpressionWithLength n none

abbrev Building := List AstNode × Parser

namespace Building

def expect (type : TokenType) (message : String) (b : Building) : Building := (b.1, b.2.expectToken type message)

/-- `child = parse(parser); if (child == NULL) parse_error(parser, message); ast_node_add_child(node, child)` -/
def child (parse : Parser → Parsed) (message : String) (b : Building) : Building :=
  let child := (parse b.2).require message
  (b.1 ++ child.1.toList, child.2)

def finish (type : AstNodeType) (b : Building) : Parsed := (some (inner type b.1), b.2)

end Building

/-- `if (!next_token(parser, type, NULL)) return NULL` and the rest of the function. -/
def parseAfter (type : TokenType) (build : Building → Parsed) (p : Parser) : Parsed :=
  match p.nextToken type with
  | none => (none, p)
  | some (_, p) => build ([], p)

section
variable (n : Nat)

def parseAssignment (p : Parser) : Parsed :=
  match parseLocation (parseExpression n) p with
  | (none, p) => (none, p)
  | (some location, p) =>
    match parseAssignOperator p with
    | (some operator, p) =>
      Building.finish .assignment
        (([location, operator], p) |> Building.child (parseExpression n) "Expected expression in assignment")
    | (none, p) =>
      match parseIncrementOperator p with
      | (some operator, p) => (some (inner .assignment [location, operator]), p)
      | (none, p) => (some (inner .assignment [location]), p.parseError "Expected operator in assignment")

def parseForUpdate (p : Parser) : Parsed :=
  ((parseMethodCall (parseExpression n) n p).orElse (parseAssignment n)).wrap fun child => inner .forUpdate [child]

def parseContinueStatement : Parser → Parsed :=
  parseAfter keywordContinue fun b =>
    b |>.expect semicolon "Expected semicolon in continue statement" |>.finish .continueStatement

def parseBreakStatement : Parser → Parsed :=
  parseAfter keywordBreak fun b => b |>.expect semicolon "Expected semicolon in break statement" |>.finish .breakStatement

def parseReturnStatement : Parser → Parsed :=
  parseAfter keywordReturn fun b =>
    let expression := parseExpression n b.2
    (expression.1.toList, expression.2) |> Building.expect semicolon "Expected semicolon in return statement"
      |>.finish .returnStatement

section
variable (block : Parser → Parsed)

def parseWhileStatement : Parser → Parsed :=
  parseAfter keywordWhile fun b =>
    b |>.expect openParenthesis "Expected open parenthesis in while statement"
      |>.child (parseExpression n) "Expected expression in while statement"
      |>.expect closeParenthesis "Expected closing parenthesis in while statement"
      |>.child block "Expected block in while statement"
      |>.finish .whileStatement

def parseForStatement : Parser → Parsed :=
  parseAfter keywordFor fun b =>
    b |>.expect openParenthesis "Expected open parenthesis in for statement"
      |>.child parseIdentifier "Expected identifier in for statement assignment"
      |>.expect assign "Expected assignment in for statement"
      |>.child (parseExpression n) "Expected expression in for statement assignment"
      |>.expect semicolon "Expected semicolon in for statement assignment"
      |>.child (parseExpression n) "Expected expression in for statement condition"
      |>.expect semicolon "Expected semicolon in for statement condition"
      |>.child (parseForUpdate n) "Expected update expression in for statement"
      |>.expect closeParenthesis "Expected closing parenthesis in for statement"
      |>.child block "Expected block in for statement"
      |>.finish .forStatement

def parseIfStatement : Parser → Parsed :=
  parseAfter keywordIf fun b =>
    let b := b |>.expect openParenthesis "Expected open parenthesis in if statement"
      |>.child (parseExpression n) "Expected expression in if statement"
      |>.expect closeParenthesis "Expected close parenthesis in if statement"
      |>.child block "Expected block in if statement"
    Building.finish .ifStatement (match b.2.nextToken keywordElse with
      | some (_, p) => (b.1, p) |> Building.child block "Expected block in else statement"
      | none => b)

/-- `parse_method_call_statement` and `parse_assign_statement`: the semicolon behind the node. -/
def parseSemicolon (parse : Parser → Parsed) (message : String) (p : Parser) : Parsed :=
  match parse p with
  | (none, p) => (none, p)
  | (some node, p) => (some node, p.expectToken semicolon message)

def parseMethodCallStatement : Parser → Parsed :=
  parseSemicolon (parseMethodCall (parseExpression n) n) "Expected semicolon in method call statement"

def parseAssignStatement : Parser → Parsed :=
  parseSemicolon (parseAssignment n) "Expected semicolon in assignment statement"

def parseStatement (p : Parser) : Parsed :=
  ((parseIfStatement n block p).orElse fun p => (parseForStatement n block p).orElse fun p =>
    (parseWhileStatement n block p).orElse fun p => (parseReturnStatement n p).orElse fun p =>
    (parseBreakStatement p).orElse fun p => (parseContinueStatement p).orElse fun p =>
    (parseMethodCallStatement n p).orElse (parseAssignStatement n)).wrap fun child => inner .statement [child]

end

/-- `while ((child = parse(parser))) ast_node_add_child(node, child)`, at most `n - 1` times. -/
def parseMany (parse : Parser → Parsed) : Nat → Building → Building
  | 0, b => (b.1, b.2.parseError "")
  | n + 1, b =>
    match parse b.2 with
    | (none, p) => (b.1, p)
    | (some child, p) => parseMany parse n (b.1 ++ [child], p)

def parseFieldLength (b : Building) : Building :=
  match b.2.nextToken openSquareBracket with
  | none => b
  | some (_, p) =>
    let length := (parseIntLiteral p).orElse fun p => (some (inner .emptyArrayLength []), p)
    Building.expect closeSquareBracket "Expected closing square bracket in field delcaration"
      (b.1 ++ length.1.toList, length.2)

def parseFieldIdentifier (p : Parser) : Parsed :=
  match parseIdentifier p with
  | (none, p) => (none, p)
  | (some name, p) =>
    let b := parseFieldLength ([name], p)
    Building.finish .fieldIdentifier (match b.2.nextToken assign with
      | none => b
      | some (_, p) => (b.1, p) |> Building.child (parseInitializer n) "Expected initializer in field declaration")

def parseFieldIdentifiers (children : List AstNode) (p : Parser) : Parsed :=
  Building.finish .field (parseSeparated (parseFieldIdentifier n) "Expected identifier in field declaration" semicolon
    "Expected comma or semicolon in field declaration" n children p)

def parseField (p : Parser) : Parsed :=
  match p.nextToken keywordConst with
  | none =>
    match parseType p with
    | (none, p) => (none, p)
    | (some type, p) => parseFieldIdentifiers n [type] p
  | some (_, p) =>
    let type := (parseType p).require "Expected type in field declaration"
    parseFieldIdentifiers n (inner .const [] :: type.1.toList) type.2

/-- `parse_block`, with blocks nested at most `m` deep in it. -/
def parseBlock : Nat → Parser → Parsed
  | 0, p => (none, p.parseError "")
  | m + 1, p =>
    parseAfter openCurlyBracket (fun b => b |> parseMany (parseField n) n |> parseMany (parseStatement n (parseBlock m)) n
      |>.expect closeCurlyBracket "Expected closing curly bracket in block" |>.finish .block) p

def parseMethodArgument (p : Parser) : Parsed :=
  match parseType p with
  | (none, p) => (none, p)
  | (some type, p) =>
    ([type], p) |> Building.child parseIdentifier "Expected identifier in method argument" |>.finish .methodArgument

def parseMethodArguments : Nat → Building → Building
  | 0, b => (b.1, b.2.parseError "")
  | n + 1, b =>
    match b.2.nextToken closeParenthesis with
    | some (_, p) => (b.1, p)
    | none =>
      match parseMethodArgument b.2 with
      | (none, p) => (b.1, p.parseError "Expected argument in method declaration")
      | (some argument, p) =>
        match p.nextToken comma with
        | some (_, p) =>
          parseMethodArguments n (b.1 ++ [argument],
            if p.peekToken 0 closeParenthesis then p.parseError "Extra comma in method declaration" else p)
        | none => parseMethodArguments n (b.1 ++ [argument], p)

def parseVoid (p : Parser) : Parsed :=
  match p.nextToken keywordVoid with
  | none => (none, p)
  | some (_, p) => (some (inner .void []), p)

def parseMethod (p : Parser) : Parsed :=
  match (parseVoid p).orElse parseType with
  | (none, p) => (none, p)
  | (some type, p) =>
    ([type], p) |> Building.child parseIdentifier "Expected identifier in method declaration"
      |>.expect openParenthesis "Expected parenthesis in method declaraction"
      |> parseMethodArguments n
      |>.child (parseBlock n n) "Expected block after method declaration"
      |>.finish .method

def peekField (p : Parser) : Bool :=
  let i := if p.peekToken 0 keywordConst then 1 else 0
  (p.peekToken i keywordInt || p.peekToken i keywordBool) && p.peekToken (i + 1) identifier &&
    !p.peekToken (i + 2) openParenthesis

def parseImport : Parser → Parsed :=
  parseAfter keywordImport fun b =>
    b |>.child parseIdentifier "Expected identifier in import declaration"
      |>.expect semicolon "Expected semicolon in import declaration" |>.finish .import

def parseProgram (p : Parser) : AstNode × Parser :=
  let b := ([], p) |> parseMany parseImport n |> parseMany (fun p => if peekField p then parseField n p else (none, p)) n
    |> parseMany (parseMethod n) n
  (inner .program b.1,
    if b.2.tokens = [] then b.2 else b.2.parseError "Unrecognized or unexpected declaration in program")

/-- `parser_parse`: the result, and the program when it is 0. -/
def parserParse (tokens : List Token) : Int × Option AstNode :=
  if tokens = [] then (-1, none)
  else
    let program := parseProgram n ⟨tokens, []⟩
    if program.2.errors = [] then (0, some program.1) else (-1, none)

end

end Roast
