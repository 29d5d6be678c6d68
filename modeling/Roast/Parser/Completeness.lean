import Roast.Parser.Declarations

/-! What is derivable the parser accepts, and builds the tree of. -/
namespace Roast
open TokenType AstNode

section
variable {token : Token} {rest : List Token} {errors : List String} {nodes : List AstNode} {type : TokenType}

@[simp] theorem Building.expect_cons (same : token.type = type) (message : String) :
    Building.expect type message (nodes, ⟨token :: rest, errors⟩) = (nodes, ⟨rest, errors⟩) := by
  simp [Building.expect, same]

theorem Building.child_eq {parse : Parser → Parsed} {p p' : Parser} {node : AstNode} (parsed : parse p = (some node, p'))
    (message : String) : Building.child parse message (nodes, p) = (nodes ++ [node], p') := by
  simp [Building.child, parsed, Parsed.require]

theorem parseAfter_cons (same : token.type = type) (build : Building → Parsed) :
    parseAfter type build ⟨token :: rest, errors⟩ = build ([], ⟨rest, errors⟩) := by
  simp [parseAfter, Parser.nextToken_cons, same]

private theorem parseAfter_ne (other : token.type ≠ type) (build : Building → Parsed) :
    parseAfter type build ⟨token :: rest, errors⟩ = (none, ⟨token :: rest, errors⟩) := by
  simp [parseAfter, Parser.nextToken_cons, other]

theorem headNotIn_cons {types : List TokenType} (other : token.type ∉ types) : HeadNotIn types (token :: rest) := by
  rintro _ ⟨⟩
  exact other

end

section
variable {n : Nat} {rest : List Token} {errors : List String}

/-- A derived assignment is parsed up to what ends it. -/
theorem DerivesAssignment.parse {tokens : List Token} {assignment : AstAssignment}
    (derives : DerivesAssignment tokens assignment) (bound : 2 * tokens.length ≤ n) (terminated : Terminated rest) :
    parseAssignment n ⟨tokens ++ rest, errors⟩ = (some assignment.toNode, ⟨rest, errors⟩) := by
  cases derives with
  | @assign operator tokens last location expression hlocation hoperator hexpression =>
    simp only [List.length_append, List.length_cons] at bound
    have located := @DerivesLocation.parse tokens (operator :: (last ++ rest)) errors location hlocation n (by omega)
      (headNotIn_cons (by intro same; rw [List.mem_singleton.mp same] at hoperator; exact absurd hoperator (by decide)))
    have parsed := @DerivesExpression.parse last rest errors expression hexpression n (by omega) terminated
    simp only [List.append_assoc, List.cons_append]
    simp only [parseAssignment, located, parseAssignOperator, parseTable_cons hoperator, Building.child_eq parsed]
    rfl
  | @increment operator tokens location hlocation hoperator =>
    simp only [List.length_append, List.length_cons] at bound
    have located := @DerivesLocation.parse tokens (operator :: rest) errors location hlocation n (by omega)
      (headNotIn_cons (by intro same; rw [List.mem_singleton.mp same] at hoperator; exact absurd hoperator (by decide)))
    have noAssign : HeadNotIn ASSIGN_OPERATORS (operator :: rest) := headNotIn_cons (by
      simp only [INCREMENT_OPERATORS, List.mem_cons, List.not_mem_nil, or_false] at hoperator
      rcases hoperator with type | type <;> simp [type, ASSIGN_OPERATORS])
    simp only [List.append_assoc, List.cons_append, List.nil_append]
    simp only [parseAssignment, located, parseAssignOperator, parseTable_none noAssign, parseIncrementOperator,
      parseTable_cons hoperator]
    rfl

/-- An assignment does not look like a call. -/
theorem DerivesAssignment.noCall {tokens : List Token} {assignment : AstAssignment}
    (derives : DerivesAssignment tokens assignment) :
    ∃ name second last, tokens = name :: second :: last ∧ name.type = identifier ∧ second.type ≠ openParenthesis := by
  cases derives with
  | assign hlocation hoperator =>
    cases hlocation with
    | scalar hname => exact ⟨_, _, _, rfl, hname, by intro same; rw [same] at hoperator; exact absurd hoperator (by decide)⟩
    | element hname hopening => exact ⟨_, _, _, rfl, hname, by rw [hopening]; decide⟩
  | increment hlocation hoperator =>
    cases hlocation with
    | scalar hname => exact ⟨_, _, _, rfl, hname, by intro same; rw [same] at hoperator; exact absurd hoperator (by decide)⟩
    | element hname hopening => exact ⟨_, _, _, rfl, hname, by rw [hopening]; decide⟩

theorem DerivesAssignment.parseMethodCall_none {tokens : List Token} {assignment : AstAssignment}
    (derives : DerivesAssignment tokens assignment) :
    parseMethodCall (parseExpression n) n ⟨tokens ++ rest, errors⟩ = (none, ⟨tokens ++ rest, errors⟩) := by
  obtain ⟨name, second, last, rfl, _, other⟩ := derives.noCall
  exact Roast.parseMethodCall_none (by simp [Parser.peekToken, other])

theorem DerivesForUpdate.parse {tokens : List Token} {update : AstForUpdate} (derives : DerivesForUpdate tokens update)
    (bound : 2 * tokens.length ≤ n) (terminated : Terminated rest) :
    parseForUpdate n ⟨tokens ++ rest, errors⟩ = (some update.toNode, ⟨rest, errors⟩) := by
  cases derives with
  | methodCall hcall =>
    rw [parseForUpdate, hcall.parse bound]
    rfl
  | assignment hassignment =>
    rw [parseForUpdate, hassignment.parseMethodCall_none, Parsed.orElse, hassignment.parse bound terminated]
    rfl

/-- Every derivable list that is at most `n` long is parsed, whatever follows it that is allowed to. -/
def Completes {α : Type} (parse : Parser → Parsed) (derives : List Token → α → Prop) (toNode : α → AstNode)
    (follows : List Token → Prop) (n : Nat) : Prop :=
  ∀ tokens item rest errors, derives tokens item → tokens.length ≤ n → follows rest →
    parse ⟨tokens ++ rest, errors⟩ = (some (toNode item), ⟨rest, errors⟩)

def HeadSeparates (close : TokenType) (tokens : List Token) : Prop :=
  ∃ token rest, tokens = token :: rest ∧ (token.type = comma ∨ token.type = close)

section
variable {α : Type} {one : Parser → Parsed} {derives : List Token → α → Prop} {toNode : α → AstNode}

/-- Derived items between commas are parsed up to the closing token. -/
theorem Separated.parse {close : TokenType} (other : close ≠ comma)
    (completes : Completes one derives toNode (HeadSeparates close) n) {tokens : List Token} {items : List α}
    (separated : Separated derives close tokens items) (itemMessage closeMessage : String) (m : Nat)
    (children : List AstNode) (bound : tokens.length ≤ n) (bound' : tokens.length ≤ m) :
    parseSeparated one itemMessage close closeMessage m children ⟨tokens ++ rest, errors⟩ =
      (children ++ items.map toNode, ⟨rest, errors⟩) := by
  induction separated generalizing m children with
  | @last tokens item closing mem hclosing =>
    simp only [List.length_append, List.length_cons] at bound bound'
    obtain ⟨m, rfl⟩ : ∃ k, m = k + 1 := ⟨m - 1, by omega⟩
    have parsed := completes tokens item (closing :: rest) errors mem (by omega) ⟨_, _, rfl, Or.inr hclosing⟩
    simp only [List.append_assoc, List.cons_append, List.nil_append]
    exact parseSeparated_close parsed hclosing other
  | @cons tokens last item items separator mem hseparator _ ih =>
    simp only [List.length_append, List.length_cons] at bound bound'
    obtain ⟨m, rfl⟩ : ∃ k, m = k + 1 := ⟨m - 1, by omega⟩
    have parsed := completes tokens item (separator :: (last ++ rest)) errors mem (by omega) ⟨_, _, rfl, Or.inl hseparator⟩
    simp only [List.append_assoc, List.cons_append]
    rw [parseSeparated_comma parsed hseparator, ih m _ (by omega) (by omega)]
    simp

/-- Derived items in a row are parsed. -/
theorem Repeated.parse (completes : Completes one derives toNode (fun _ => True) n)
    (nonempty : ∀ item, ¬derives [] item) {tokens : List Token} {items : List α} (repeated : Repeated derives tokens items)
    (stops : one ⟨rest, errors⟩ = (none, ⟨rest, errors⟩)) (m : Nat) (children : List AstNode) (bound : tokens.length ≤ n)
    (bound' : tokens.length < m) :
    parseMany one m (children, ⟨tokens ++ rest, errors⟩) = (children ++ items.map toNode, ⟨rest, errors⟩) := by
  induction repeated generalizing m children with
  | nil =>
    obtain ⟨m, rfl⟩ : ∃ k, m = k + 1 := ⟨m - 1, by omega⟩
    simp [parseMany, stops]
  | @cons tokens last item items mem _ ih =>
    obtain ⟨m, rfl⟩ : ∃ k, m = k + 1 := ⟨m - 1, by omega⟩
    obtain ⟨token, tokens, rfl⟩ := List.exists_cons_of_ne_nil fun empty => nonempty item (empty ▸ mem)
    simp only [List.cons_append, List.length_cons, List.length_append] at bound bound'
    have parsed := completes (token :: tokens) item (last ++ rest) errors mem (by simp only [List.length_cons]; omega) trivial
    rw [List.append_assoc, parseMany]
    simp only [parsed]
    rw [ih m _ (by omega) (by omega)]
    simp

end

/-- A derived initializer is parsed. -/
theorem DerivesInitializer.parse {tokens : List Token} {initializer : AstInitializer}
    (derives : DerivesInitializer tokens initializer) (bound : tokens.length ≤ n) :
    parseInitializer n ⟨tokens ++ rest, errors⟩ = (some initializer.toNode, ⟨rest, errors⟩) := by
  cases derives with
  | @scalar _ literal hliteral =>
    have noArray : parseArrayLiteral n ⟨tokens ++ rest, errors⟩ = (none, ⟨tokens ++ rest, errors⟩) := by
      have other : HeadNotIn [openCurlyBracket] (tokens ++ rest) := by
        cases hliteral with
        | plain kind =>
          refine headNotIn_cons fun same => ?_
          rw [List.mem_singleton.mp same] at kind
          exact absurd kind (by decide)
        | negated sign kind => exact headNotIn_cons (by rw [sign]; decide)
      rw [parseArrayLiteral, nextToken_none other]
    rw [parseInitializer, noArray, Parsed.orElse, hliteral.parse]
    rfl
  | @array opening last literals hopening hliterals =>
    rw [List.length_cons] at bound
    have completes : Completes parseLiteral DerivesLiteral AstLiteral.toNode (HeadSeparates closeCurlyBracket) n :=
      fun tokens literal rest errors derives _ _ => derives.parse
    have parsed := @Separated.parse n rest errors _ _ _ _ _ (by decide) completes _ _ hliterals
      "Expected literal in array literal" "Expected closing brace or comma in array literal" n [] (by omega) (by omega)
    simp only [List.cons_append, parseInitializer, parseArrayLiteral, Parser.nextToken_cons, hopening, if_true, parsed]
    rfl

/-- A derived array length is parsed. -/
theorem DerivesLength.parse {tokens : List Token} {length : AstLength} (derives : DerivesLength tokens length)
    (nodes : List AstNode) (noLength : HeadNotIn [openSquareBracket] rest) :
    parseFieldLength (nodes, ⟨tokens ++ rest, errors⟩) = (nodes ++ length.toNodes, ⟨rest, errors⟩) := by
  cases derives with
  | none => simp [parseFieldLength, nextToken_none noLength, AstLength.toNodes]
  | empty hopening hclosing =>
    have noLiteral : HeadNotIn INT_LITERALS (_ :: rest) := headNotIn_cons (by rw [hclosing]; decide)
    simp [parseFieldLength, Parser.nextToken_cons, hopening, parseIntLiteral, parseTable_none noLiteral, Parsed.orElse,
      hclosing, AstLength.toNodes]
  | literal hopening hlength hclosing =>
    simp [parseFieldLength, Parser.nextToken_cons, hopening, parseIntLiteral, parseTable_cons hlength, Parsed.orElse,
      hclosing, AstLength.toNodes]

private theorem parseFieldIdentifier_completes :
    Completes (parseFieldIdentifier n) DerivesDeclarator AstDeclarator.toNode (HeadSeparates semicolon) n := by
  rintro _ _ rest errors derives bound ⟨token, rest, rfl, separates⟩
  have other (type : TokenType) (notComma : type ≠ comma) (notSemicolon : type ≠ semicolon) :
      HeadNotIn [type] (token :: rest) := headNotIn_cons (by
    rcases separates with same | same <;> rw [same] <;> simp [notComma.symm, notSemicolon.symm])
  cases derives with
  | plain hname hlength =>
    rw [List.cons_append]
    simp only [parseFieldIdentifier, parseIdentifier_cons hname,
      hlength.parse _ (other openSquareBracket (by decide) (by decide)), nextToken_none (other assign (by decide) (by decide))]
    simp [Building.finish, AstDeclarator.toNode]
  | @initialized name equals tokens last length initializer hname hlength hequals hinitializer =>
    simp only [List.length_cons, List.length_append] at bound
    have noLength : HeadNotIn [openSquareBracket] (equals :: (last ++ token :: rest)) :=
      headNotIn_cons (by rw [hequals]; decide)
    have parsed := @DerivesInitializer.parse n (token :: rest) errors _ _ hinitializer (by omega)
    simp only [List.cons_append, List.append_assoc]
    simp only [parseFieldIdentifier, parseIdentifier_cons hname, hlength.parse _ noLength, Parser.nextToken_cons, hequals,
      if_true, Building.child_eq parsed]
    simp [Building.finish, AstDeclarator.toNode]

theorem parseType_cons {type : Token} (htype : type.type ∈ TYPES) :
    parseType ⟨type :: rest, errors⟩ = (some (leaf .dataType type), ⟨rest, errors⟩) := by
  have other : type.type ≠ keywordVoid := by
    intro same
    rw [same] at htype
    exact absurd htype (by decide)
  simp [parseType, Parser.nextToken_cons, other, parseTable_cons htype]

theorem parseField_completes : Completes (parseField n) DerivesField AstField.toNode (fun _ => True) n := by
  rintro _ _ rest errors derives bound -
  cases derives with
  | @ordinary type tokens declarators htype hdeclarators =>
    rw [List.length_cons] at bound
    have other : type.type ≠ keywordConst := by
      intro same
      rw [same] at htype
      exact absurd htype (by decide)
    have parsed := @Separated.parse n rest errors _ _ _ _ _ (by decide) parseFieldIdentifier_completes _ _ hdeclarators
      "Expected identifier in field declaration" "Expected comma or semicolon in field declaration" n
      [leaf .dataType type] (by omega) (by omega)
    simp only [List.cons_append, parseField, Parser.nextToken_cons, other, if_false, parseType_cons htype,
      parseFieldIdentifiers, parsed]
    rfl
  | @constant keyword type tokens declarators hkeyword htype hdeclarators =>
    simp only [List.length_cons] at bound
    have parsed := @Separated.parse n rest errors _ _ _ _ _ (by decide) parseFieldIdentifier_completes _ _ hdeclarators
      "Expected identifier in field declaration" "Expected comma or semicolon in field declaration" n
      [inner .const [], leaf .dataType type] (by omega) (by omega)
    simp only [List.cons_append, parseField, Parser.nextToken_cons, hkeyword, if_true, parseType_cons htype,
      parseFieldIdentifiers, Parsed.require, Option.toList, parsed]
    rfl

theorem DerivesField.nonempty (field : AstField) : ¬DerivesField [] field := fun derives => by cases derives

def FIRST_STATEMENT : List TokenType :=
  [keywordIf, keywordFor, keywordWhile, keywordReturn, keywordBreak, keywordContinue, identifier]

theorem DerivesCall.head {tokens : List Token} {call : AstCall} (derives : DerivesCall tokens call) :
    ∃ name rest, tokens = name :: rest ∧ name.type = identifier := by
  cases derives with
  | empty hname => exact ⟨_, _, rfl, hname⟩
  | arguments hname => exact ⟨_, _, rfl, hname⟩

/-- A derived statement begins with a token that begins statements. -/
theorem DerivesStatement.head {tokens : List Token} {statement : AstStatement} (derives : DerivesStatement tokens statement) :
    ∃ token rest, tokens = token :: rest ∧ token.type ∈ FIRST_STATEMENT := by
  cases derives with
  | assignment hassignment =>
    obtain ⟨name, second, last, rfl, hname, _⟩ := hassignment.noCall
    exact ⟨_, _, rfl, by simp [FIRST_STATEMENT, hname]⟩
  | methodCall hcall =>
    obtain ⟨name, last, rfl, hname⟩ := hcall.head
    exact ⟨_, _, rfl, by simp [FIRST_STATEMENT, hname]⟩
  | ifStatement hcondition =>
    cases hcondition with | mk hfirst => exact ⟨_, _, rfl, by simp [FIRST_STATEMENT, hfirst]⟩
  | ifElseStatement hcondition =>
    cases hcondition with | mk hfirst => exact ⟨_, _, rfl, by simp [FIRST_STATEMENT, hfirst]⟩
  | forStatement hfor => cases hfor with | mk hkeyword => exact ⟨_, _, rfl, by simp [FIRST_STATEMENT, hkeyword]⟩
  | whileStatement hcondition =>
    cases hcondition with | mk hfirst => exact ⟨_, _, rfl, by simp [FIRST_STATEMENT, hfirst]⟩
  | returnStatement hkeyword => exact ⟨_, _, rfl, by simp [FIRST_STATEMENT, hkeyword]⟩
  | returnExpression hkeyword => exact ⟨_, _, rfl, by simp [FIRST_STATEMENT, hkeyword]⟩
  | breakStatement hkeyword => exact ⟨_, _, rfl, by simp [FIRST_STATEMENT, hkeyword]⟩
  | continueStatement hkeyword => exact ⟨_, _, rfl, by simp [FIRST_STATEMENT, hkeyword]⟩

/-- The statements of a block end at a token that begins no field and no `else`. -/
theorem DerivesStatements.head {tokens : List Token} {statements : AstStatements}
    (derives : DerivesStatements tokens statements) {closing : Token} (hclosing : closing.type = closeCurlyBracket)
    (rest : List Token) :
    HeadNotIn [keywordElse, keywordConst, keywordVoid, keywordInt, keywordBool] (tokens ++ closing :: rest) := by
  cases derives with
  | nil => exact headNotIn_cons (by rw [hclosing]; decide)
  | cons hstatement =>
    obtain ⟨token, last, rfl, mem⟩ := hstatement.head
    simp only [List.cons_append]
    refine headNotIn_cons fun other => ?_
    simp only [FIRST_STATEMENT, List.mem_cons, List.not_mem_nil, or_false] at mem other
    rcases other with same | same | same | same | same <;> simp [same] at mem

private theorem parseStatement_none {block : Parser → Parsed} {closing : Token}
    (hclosing : closing.type = closeCurlyBracket) :
    parseStatement n block ⟨closing :: rest, errors⟩ = (none, ⟨closing :: rest, errors⟩) := by
  have noCall : parseMethodCall (parseExpression n) n ⟨closing :: rest, errors⟩ = (none, ⟨closing :: rest, errors⟩) :=
    parseMethodCall_none (by simp [Parser.peekToken, hclosing])
  have noName : parseIdentifier ⟨closing :: rest, errors⟩ = (none, ⟨closing :: rest, errors⟩) := by
    simp [parseIdentifier, parseTable, Parser.nextTokenInTable_cons, hclosing, KEYWORDS]
  have other (type : TokenType) (different : type ≠ closeCurlyBracket) : closing.type ≠ type := by
    rw [hclosing]
    exact different.symm
  simp only [parseStatement, parseIfStatement, parseForStatement, parseWhileStatement, parseReturnStatement,
    parseBreakStatement, parseContinueStatement, parseAfter_ne (other keywordIf (by decide)),
    parseAfter_ne (other keywordFor (by decide)), parseAfter_ne (other keywordWhile (by decide)),
    parseAfter_ne (other keywordReturn (by decide)), parseAfter_ne (other keywordBreak (by decide)),
    parseAfter_ne (other keywordContinue (by decide)), Parsed.orElse, parseMethodCallStatement, parseAssignStatement,
    parseSemicolon, noCall, parseAssignment, parseLocation_none noName, Parsed.wrap]

/-- No keyword begins the statement. -/
private theorem parseStatement_name {block : Parser → Parsed} {name : Token} (hname : name.type = identifier) :
    parseStatement n block ⟨name :: rest, errors⟩ = ((parseMethodCallStatement n ⟨name :: rest, errors⟩).orElse
      (parseAssignStatement n)).wrap fun child => inner .statement [child] := by
  have other (type : TokenType) (different : type ≠ identifier) : name.type ≠ type := by
    rw [hname]
    exact different.symm
  simp only [parseStatement, parseIfStatement, parseForStatement, parseWhileStatement, parseReturnStatement,
    parseBreakStatement, parseContinueStatement, parseAfter_ne (other keywordIf (by decide)),
    parseAfter_ne (other keywordFor (by decide)), parseAfter_ne (other keywordWhile (by decide)),
    parseAfter_ne (other keywordReturn (by decide)), parseAfter_ne (other keywordBreak (by decide)),
    parseAfter_ne (other keywordContinue (by decide)), Parsed.orElse]

private theorem parseExpression_none {closing : Token} (hclosing : closing.type = semicolon) :
    parseExpression (n + 2) ⟨closing :: rest, errors⟩ = (none, ⟨closing :: rest, errors⟩) := by
  have noLiteral : HeadNotIn (sub :: stringLiteral :: charLiteral :: (BOOL_LITERALS ++ INT_LITERALS)) (closing :: rest) :=
    headNotIn_cons (by rw [hclosing]; decide)
  have noName : parseIdentifier ⟨closing :: rest, errors⟩ = (none, ⟨closing :: rest, errors⟩) := by
    simp [parseIdentifier, parseTable, Parser.nextTokenInTable_cons, hclosing, KEYWORDS]
  have noCall : ((⟨closing :: rest, errors⟩ : Parser).peekToken 0 identifier &&
      (⟨closing :: rest, errors⟩ : Parser).peekToken 1 openParenthesis) = false := by
    simp [Parser.peekToken, hclosing]
  have noOperator : findBinaryOperatorIndices none ⟨closing :: rest, errors⟩ = [] :=
    findOperators_terminator (by rw [hclosing]; rfl)
  have noParenthesis : (⟨closing :: rest, errors⟩ : Parser).nextToken openParenthesis = none := by
    simp [Parser.nextToken_cons, hclosing]
  simp only [parseExpression, parseExpressionWithLength, parseBinaryExpression, noOperator, parseUnaryExpression,
    parseLenExpression_none (hclosing.trans_ne (by decide)), parseNotExpression_none (hclosing.trans_ne (by decide)),
    parseNegateExpression_none (hclosing.trans_ne (by decide)), parseLiteral_none noLiteral, parseMethodCall_none noCall,
    parseLocation_none noName, parseParenthesisExpression, noParenthesis, Parsed.orElse, Parsed.wrap]

section
variable {first opening closing : Token} {tokens : List Token} {condition : AstExpression} {nodes : List AstNode}

/-- The steps over a condition in parentheses. -/
private theorem building_condition (hopening : opening.type = openParenthesis)
    (hcondition : DerivesExpression tokens condition)
    (hclosing : closing.type = closeParenthesis) (bound : 2 * tokens.length ≤ n) (message message' message'' : String) :
    Building.expect closeParenthesis message'' (Building.child (parseExpression n) message'
      (Building.expect openParenthesis message (nodes, ⟨opening :: (tokens ++ closing :: rest), errors⟩))) =
      (nodes ++ [condition.toNode], ⟨rest, errors⟩) := by
  have parsed := @DerivesExpression.parse tokens (closing :: rest) errors condition hcondition n bound
    (terminated_cons (by rw [hclosing]; rfl))
  simp only [Building.expect_cons hopening, Building.child_eq parsed, Building.expect_cons hclosing]

end

private theorem other_type {token : Token} {type other : TokenType} (same : token.type = type)
    (different : type ≠ other) :
    token.type ≠ other := by
  rw [same]
  exact different

mutual

/-- A derived statement is parsed with enough fuel. -/
theorem DerivesStatement.parse {tokens : List Token} {statement : AstStatement} :
    DerivesStatement tokens statement → ∀ n m rest errors, 2 * tokens.length ≤ n → tokens.length ≤ m →
      HeadNotIn [keywordElse] rest → parseStatement n (parseBlock n m) ⟨tokens ++ rest, errors⟩ =
        (some (inner .statement [statement.toChild]), ⟨rest, errors⟩)
  | @DerivesStatement.assignment closing tokens assignment hassignment hclosing => by
    intro n m rest errors bound bound' head
    simp only [List.length_append, List.length_cons] at bound
    have parsed := @DerivesAssignment.parse n (closing :: rest) errors tokens assignment hassignment (by omega)
      (terminated_cons (by rw [hclosing]; rfl))
    have noCall := @DerivesAssignment.parseMethodCall_none n (closing :: rest) errors tokens assignment hassignment
    obtain ⟨name, second, last, rfl, hname, _⟩ := hassignment.noCall
    simp only [List.cons_append, List.append_assoc, List.nil_append] at parsed noCall ⊢
    rw [parseStatement_name hname]
    simp only [parseMethodCallStatement, parseSemicolon, noCall, Parsed.orElse, parseAssignStatement, parsed,
      Parser.expectToken_cons hclosing]
    rfl
  | @DerivesStatement.methodCall closing tokens call hcall hclosing => by
    intro n m rest errors bound bound' head
    simp only [List.length_append, List.length_cons] at bound
    have parsed := @DerivesCall.parse tokens (closing :: rest) errors call hcall n (by omega)
    obtain ⟨name, last, rfl, hname⟩ := hcall.head
    simp only [List.cons_append, List.append_assoc, List.nil_append] at parsed ⊢
    rw [parseStatement_name hname]
    simp only [parseMethodCallStatement, parseSemicolon, parsed, Parsed.orElse, Parser.expectToken_cons hclosing]
    rfl
  | @DerivesStatement.ifStatement _ tokens condition ifBlock (.mk hfirst hopening hcondition hclosing) hblock => by
    intro n m rest errors bound bound' head
    simp only [List.length_append, List.length_cons, List.length_nil] at bound bound'
    have parsed := hblock.parse n m rest errors (by omega) (by omega)
    simp only [List.cons_append, List.append_assoc, List.nil_append]
    simp only [parseStatement, parseIfStatement, parseAfter_cons hfirst,
      building_condition hopening hcondition hclosing (show 2 * _ ≤ n by omega), Building.child_eq parsed,
      nextToken_none head]
    rfl
  | @DerivesStatement.ifElseStatement keyword _ tokens last condition ifBlock elseBlock
      (.mk hfirst hopening hcondition hclosing) hblock hkeyword helse => by
    intro n m rest errors bound bound' head
    simp only [List.length_append, List.length_cons, List.length_nil] at bound bound'
    have parsed := hblock.parse n m (keyword :: (last ++ rest)) errors (by omega) (by omega)
    have parsed' := helse.parse n m rest errors (by omega) (by omega)
    simp only [List.cons_append, List.append_assoc, List.nil_append]
    simp only [parseStatement, parseIfStatement, parseAfter_cons hfirst,
      building_condition hopening hcondition hclosing (show 2 * _ ≤ n by omega), Building.child_eq parsed,
      Parser.nextToken_cons, hkeyword, if_true, Building.child_eq parsed']
    rfl
  | @DerivesStatement.forStatement name _ last initial condition update block (@DerivesFor.mk keyword opening _ equals first
      second closing tokens tokens' tokens'' _ _ _ hkeyword hopening hname hequals hinitial hfirst hcondition hsecond hupdate
      hclosing) hblock => by
    intro n m rest errors bound bound' head
    simp only [List.length_append, List.length_cons, List.length_nil] at bound bound'
    have parsedInitial := @DerivesExpression.parse _ (first :: (tokens' ++ second :: (tokens'' ++ closing :: (last ++ rest))))
      errors initial hinitial n (by omega) (terminated_cons (by rw [hfirst]; rfl))
    have parsedCondition := @DerivesExpression.parse _ (second :: (tokens'' ++ closing :: (last ++ rest))) errors condition
      hcondition n (by omega) (terminated_cons (by rw [hsecond]; rfl))
    have parsedUpdate := @DerivesForUpdate.parse n (closing :: (last ++ rest)) errors tokens'' update hupdate (by omega)
      (terminated_cons (by rw [hclosing]; rfl))
    have parsed := hblock.parse n m rest errors (by omega) (by omega)
    simp only [List.cons_append, List.append_assoc, List.nil_append]
    simp only [parseStatement, parseIfStatement, parseAfter_ne (other_type hkeyword (by decide : keywordFor ≠ keywordIf)),
      Parsed.orElse, parseForStatement, parseAfter_cons hkeyword, Building.expect_cons hopening,
      Building.child_eq (parseIdentifier_cons hname), Building.expect_cons hequals, Building.child_eq parsedInitial,
      Building.expect_cons hfirst, Building.child_eq parsedCondition, Building.expect_cons hsecond,
      Building.child_eq parsedUpdate, Building.expect_cons hclosing, Building.child_eq parsed]
    rfl
  | .whileStatement (.mk hfirst hopening hcondition hclosing) hblock => by
    intro n m rest errors bound bound' head
    simp only [List.length_append, List.length_cons, List.length_nil] at bound bound'
    have parsed := hblock.parse n m rest errors (by omega) (by omega)
    simp only [List.cons_append, List.append_assoc, List.nil_append]
    simp only [parseStatement, parseIfStatement, parseAfter_ne (other_type hfirst (by decide : keywordWhile ≠ keywordIf)),
      parseForStatement, parseAfter_ne (other_type hfirst (by decide : keywordWhile ≠ keywordFor)), Parsed.orElse,
      parseWhileStatement, parseAfter_cons hfirst,
      building_condition hopening hcondition hclosing (show 2 * _ ≤ n by omega), Building.child_eq parsed]
    rfl
  | .returnStatement hkeyword hclosing => by
    intro n m rest errors bound bound' head
    simp only [List.length_cons, List.length_nil] at bound
    obtain ⟨n, rfl⟩ : ∃ k, n = k + 2 := ⟨n - 2, by omega⟩
    simp only [List.cons_append, List.nil_append]
    simp only [parseStatement, parseIfStatement, parseAfter_ne (other_type hkeyword (by decide : keywordReturn ≠ keywordIf)),
      parseForStatement, parseAfter_ne (other_type hkeyword (by decide : keywordReturn ≠ keywordFor)), Parsed.orElse,
      parseWhileStatement, parseAfter_ne (other_type hkeyword (by decide : keywordReturn ≠ keywordWhile)),
      parseReturnStatement, parseAfter_cons hkeyword, parseExpression_none hclosing, Building.expect_cons hclosing]
    rfl
  | @DerivesStatement.returnExpression keyword closing tokens expression hkeyword hexpression hclosing => by
    intro n m rest errors bound bound' head
    simp only [List.length_append, List.length_cons] at bound
    have parsed := @DerivesExpression.parse tokens (closing :: rest) errors expression hexpression n (by omega)
      (terminated_cons (by rw [hclosing]; rfl))
    simp only [List.cons_append, List.append_assoc, List.nil_append]
    simp only [parseStatement, parseIfStatement, parseAfter_ne (other_type hkeyword (by decide : keywordReturn ≠ keywordIf)),
      parseForStatement, parseAfter_ne (other_type hkeyword (by decide : keywordReturn ≠ keywordFor)), Parsed.orElse,
      parseWhileStatement, parseAfter_ne (other_type hkeyword (by decide : keywordReturn ≠ keywordWhile)),
      parseReturnStatement, parseAfter_cons hkeyword, parsed, Building.expect_cons hclosing]
    rfl
  | .breakStatement hkeyword hclosing => by
    intro n m rest errors bound bound' head
    simp only [List.cons_append, List.nil_append]
    simp only [parseStatement, parseIfStatement, parseAfter_ne (other_type hkeyword (by decide : keywordBreak ≠ keywordIf)),
      parseForStatement, parseAfter_ne (other_type hkeyword (by decide : keywordBreak ≠ keywordFor)), Parsed.orElse,
      parseWhileStatement, parseAfter_ne (other_type hkeyword (by decide : keywordBreak ≠ keywordWhile)),
      parseReturnStatement, parseAfter_ne (other_type hkeyword (by decide : keywordBreak ≠ keywordReturn)),
      parseBreakStatement, parseAfter_cons hkeyword, Building.expect_cons hclosing]
    rfl
  | .continueStatement hkeyword hclosing => by
    intro n m rest errors bound bound' head
    simp only [List.cons_append, List.nil_append]
    simp only [parseStatement, parseIfStatement, parseAfter_ne (other_type hkeyword (by decide : keywordContinue ≠ keywordIf)),
      parseForStatement, parseAfter_ne (other_type hkeyword (by decide : keywordContinue ≠ keywordFor)), Parsed.orElse,
      parseWhileStatement, parseAfter_ne (other_type hkeyword (by decide : keywordContinue ≠ keywordWhile)),
      parseReturnStatement, parseAfter_ne (other_type hkeyword (by decide : keywordContinue ≠ keywordReturn)),
      parseBreakStatement, parseAfter_ne (other_type hkeyword (by decide : keywordContinue ≠ keywordBreak)),
      parseContinueStatement, parseAfter_cons hkeyword, Building.expect_cons hclosing]
    rfl

/-- A derived block is parsed with enough fuel. -/
theorem DerivesBlock.parse {tokens : List Token} {block : AstBlock} :
    DerivesBlock tokens block → ∀ n m rest errors, 2 * tokens.length ≤ n → tokens.length ≤ m →
      parseBlock n m ⟨tokens ++ rest, errors⟩ = (some block.toNode, ⟨rest, errors⟩)
  | @DerivesBlock.mk opening closing tokens last fields statements hopening hfields hstatements hclosing => by
    intro n m rest errors bound bound'
    simp only [List.length_append, List.length_cons, List.length_nil] at bound bound'
    obtain ⟨m, rfl⟩ : ∃ k, m = k + 1 := ⟨m - 1, by omega⟩
    have stops : parseField n ⟨last ++ closing :: rest, errors⟩ = (none, ⟨last ++ closing :: rest, errors⟩) := by
      have head := hstatements.head hclosing rest
      have among {type : TokenType} (mem : type ∈ [keywordElse, keywordConst, keywordVoid, keywordInt, keywordBool]) :
          HeadNotIn [type] (last ++ closing :: rest) := fun token found same =>
        head token found (List.mem_singleton.mp same ▸ mem)
      have noType : HeadNotIn TYPES (last ++ closing :: rest) := fun token found same =>
        head token found (by simp only [TYPES, List.mem_cons, List.not_mem_nil, or_false] at same ⊢; tauto)
      simp only [parseField, nextToken_none (@among keywordConst (by decide)), parseType,
        nextToken_none (@among keywordVoid (by decide)), parseTable_none noType]
    have parsedFields := @Repeated.parse n (last ++ closing :: rest) errors _ _ _ _ parseField_completes
      DerivesField.nonempty _ _ hfields stops n [] (by omega) (by omega)
    have parsedStatements := hstatements.parse n m n (fields.map AstField.toNode) closing rest errors (by omega) (by omega)
      (by omega) hclosing
    simp only [List.cons_append, List.append_assoc, List.nil_append]
    simp only [parseBlock, parseAfter_cons hopening, parsedFields, List.nil_append, parsedStatements,
      Building.expect_cons hclosing]
    rfl

/-- Derived statements are parsed up to the closing brace. -/
theorem DerivesStatements.parse {tokens : List Token} {statements : AstStatements} :
    DerivesStatements tokens statements → ∀ n m k children closing rest errors, 2 * tokens.length ≤ n →
      tokens.length ≤ m → tokens.length < k → closing.type = closeCurlyBracket →
      parseMany (parseStatement n (parseBlock n m)) k (children, ⟨tokens ++ closing :: rest, errors⟩) =
        (children ++ statements.toNodes, ⟨closing :: rest, errors⟩)
  | .nil => by
    rintro n m (_ | k) children closing rest errors bound bound' bound'' hclosing
    · simp at bound''
    · simp [parseMany, parseStatement_none hclosing, AstStatements.toNodes]
  | @DerivesStatements.cons tokens last statement statements hstatement hstatements => by
    rintro n m (_ | k) children closing rest errors bound bound' bound'' hclosing
    · simp at bound''
    · simp only [List.length_append] at bound bound' bound''
      obtain ⟨token, tokens, rfl, _⟩ := hstatement.head
      simp only [List.length_cons] at bound bound' bound''
      have head : HeadNotIn [keywordElse] (last ++ closing :: rest) := fun token found same =>
        hstatements.head hclosing rest token found (by simp [List.mem_singleton.mp same])
      have parsed := hstatement.parse n m (last ++ closing :: rest) errors (by rw [List.length_cons]; omega)
        (by rw [List.length_cons]; omega) head
      have parsed' := hstatements.parse n m k (children ++ [inner .statement [statement.toChild]]) closing rest errors
        (by omega) (by omega) (by omega) hclosing
      rw [List.append_assoc, parseMany]
      simp only [parsed, parsed']
      simp [AstStatements.toNodes]

end

end

end Roast
