import Roast.Parser.Progress

/-! The parser ends on every list of tokens and reads inside it. -/
namespace Roast
open TokenType AstNode

theorem Proceeds.next {p q : Parser} {b : Building} (start : Proceeds p b b) {type : TokenType} {token : Token}
    (next : b.2.nextToken type = some (token, q)) : Proceeds p (b.1, q) (b.1, q) :=
  ⟨rfl, start.ahead.trans (nextToken_ahead next).toLater⟩

private theorem parseSemicolon_agrees {p : Parser} {parse parse' : Parser → Parsed} {message : String}
    (agrees : Agrees p (parse p) (parse' p)) (nonempty : "" ≠ message) :
    Agrees p (parseSemicolon parse message p) (parseSemicolon parse' message p) := by
  rw [parseSemicolon, parseSemicolon, ← agrees.same]
  cases found : parse p with
  | mk child q =>
    cases child with
    | none =>
      rw [found] at agrees
      exact ⟨rfl, agrees.follows, agrees.advances⟩
    | some node => exact Agrees.found ((agrees.ahead found).trans (expectToken_later _ q nonempty))

/-- The loop goes on while its items advance. -/
private theorem parseMany_agrees {parse parse' : Parser → Parsed} (n n' : Nat) (b : Building)
    (enough : b.2.tokens.length < n)
    (enough' : b.2.tokens.length < n') (agree : AgreeBelow (b.2.tokens.length + 1) parse parse') :
    parseMany parse n b = parseMany parse' n' b ∧ Later b.2 (parseMany parse n b).2 := by
  induction n generalizing n' b with
  | zero => exact absurd enough (Nat.not_lt_zero _)
  | succ n ih =>
    cases n' with
    | zero => exact absurd enough' (Nat.not_lt_zero _)
    | succ n' =>
      have agrees := agree b.2 (Nat.lt_succ_self _)
      rw [parseMany, parseMany, ← agrees.same]
      cases found : parse b.2 with
      | mk child q =>
        cases child with
        | none =>
          rw [found] at agrees
          exact ⟨rfl, agrees.follows⟩
        | some node =>
          have ahead := agrees.ahead found
          obtain ⟨same, follows⟩ := ih n' (b.1 ++ [node], q) (ahead.shorter.trans_le (Nat.lt_succ_iff.mp enough))
            (ahead.shorter.trans_le (Nat.lt_succ_iff.mp enough')) (agree.mono (Nat.succ_le_succ ahead.shorter.le))
          exact ⟨same, ahead.toLater.trans follows⟩

section
variable {n n' count : Nat} (enough : expressionDepth count count ≤ n) (enough' : expressionDepth count count ≤ n')

theorem Proceeds.many {p : Parser} {b b' : Building} (proceeds : Proceeds p b b') (short : p.tokens.length ≤ count)
    {parse parse' : Parser → Parsed} (agree : AgreeBelow p.tokens.length parse parse') (loops : count ≤ n) (loops' : count ≤ n') :
    Proceeds p (parseMany parse n b) (parseMany parse' n' b') := by
  obtain ⟨rfl, ahead⟩ := proceeds
  obtain ⟨same, follows⟩ := parseMany_agrees n n' b (ahead.shorter.trans_le (short.trans loops))
    (ahead.shorter.trans_le (short.trans loops')) (agree.mono ahead.shorter)
  exact ⟨same, ahead.trans follows⟩

private theorem loops_lt (enough : expressionDepth count count ≤ n) : count < n := by
  rw [expressionDepth] at enough
  omega

private theorem loops_le (enough : expressionDepth count count ≤ n) : count ≤ n := (loops_lt enough).le

include enough enough'

private theorem parseExpression_agrees {p : Parser} (short : p.tokens.length ≤ count) :
    Agrees p (parseExpression n p) (parseExpression n' p) := by
  have le : expressionDepth p.tokens.length (window none p.tokens).length ≤ expressionDepth count count :=
    Nat.add_le_add_right (Nat.add_le_add (Nat.mul_le_mul short (Nat.add_le_add_right short 3)) short) 2
  exact (parseExpressions_agree n n' p).2 none (le.trans enough) (le.trans enough')

variable {p : Parser} (short : p.tokens.length ≤ count)
include short

private theorem parseExpression_below : AgreeBelow p.tokens.length (parseExpression n) (parseExpression n') :=
  fun _ shorter => parseExpression_agrees enough enough' (shorter.le.trans short)

private theorem parseAssignment_agrees : Agrees p (parseAssignment n p) (parseAssignment n' p) := by
  have expression := parseExpression_below enough enough' short
  have location := parseLocation_agrees expression
  rw [parseAssignment, parseAssignment, ← location.same]
  cases found : parseLocation (parseExpression n) p with
  | mk child q =>
    cases child with
    | none =>
      rw [found] at location
      exact ⟨rfl, location.follows, location.advances⟩
    | some node =>
      have ahead := location.ahead found
      have operator := parseTable_agrees ASSIGN_OPERATORS .assignOperator q
      simp only
      cases found' : parseAssignOperator q with
      | mk child q1 =>
        rw [← parseAssignOperator, found'] at operator
        have follows := ahead.trans operator.follows
        cases child with
        | some sign =>
          have start : Proceeds p ([node, sign], q1) ([node, sign], q1) := ⟨rfl, follows⟩
          exact (start.child expression (by decide)).finish .assignment
        | none =>
          have increment := parseTable_agrees INCREMENT_OPERATORS .incrementOperator q1
          simp only
          cases found'' : parseIncrementOperator q1 with
          | mk child q2 =>
            rw [← parseIncrementOperator, found''] at increment
            cases child with
            | some sign => exact Agrees.found (follows.trans increment.follows)
            | none => exact Agrees.found ((follows.trans increment.follows).trans (parseError_later _ (by decide)))

private theorem parseMethodCall_of_expression :
    Agrees p (parseMethodCall (parseExpression n) n p) (parseMethodCall (parseExpression n') n' p) :=
  parseMethodCall_agrees (short.trans (loops_le enough)) (short.trans (loops_le enough'))
    (parseExpression_below enough enough' short)

private theorem parseForUpdate_agrees : Agrees p (parseForUpdate n p) (parseForUpdate n' p) :=
  ((parseMethodCall_of_expression enough enough' short).orElse fun _ follows =>
    parseAssignment_agrees enough enough' (follows.length_le.trans short)).wrap _

private theorem parseReturnStatement_agrees : Agrees p (parseReturnStatement n p) (parseReturnStatement n' p) := by
  refine parseAfter_agrees _ fun b start => ?_
  have expression := parseExpression_below enough enough' short b.2 start.ahead.shorter
  have proceeds : Proceeds p ((parseExpression n b.2).1.toList, (parseExpression n b.2).2)
      ((parseExpression n' b.2).1.toList, (parseExpression n' b.2).2) := by
    rw [← expression.same]
    exact ⟨rfl, start.ahead.trans expression.follows⟩
  exact (proceeds.expect _ (by decide)).finish _

section
variable {block block' : Parser → Parsed} (blocks : AgreeBelow p.tokens.length block block')
include blocks

private theorem parseWhileStatement_agrees :
    Agrees p (parseWhileStatement n block p) (parseWhileStatement n' block' p) := by
  have expression := parseExpression_below enough enough' short
  refine parseAfter_agrees _ fun b start => ?_
  have condition := ((start.expect openParenthesis (show "" ≠ "Expected open parenthesis in while statement" by decide)).child
    expression (show "" ≠ "Expected expression in while statement" by decide)).expect closeParenthesis
    (show "" ≠ "Expected closing parenthesis in while statement" by decide)
  exact (condition.child blocks (by decide)).finish _

private theorem parseForStatement_agrees : Agrees p (parseForStatement n block p) (parseForStatement n' block' p) := by
  have expression := parseExpression_below enough enough' short
  have update : AgreeBelow p.tokens.length (parseForUpdate n) (parseForUpdate n') :=
    fun q shorter => parseForUpdate_agrees enough enough' (shorter.le.trans short)
  refine parseAfter_agrees _ fun b start => ?_
  have initial := (((start.expect openParenthesis (show "" ≠ "Expected open parenthesis in for statement" by decide)).child
    (fun q _ => parseIdentifier_agrees q) (show "" ≠ "Expected identifier in for statement assignment" by decide)).expect
    assign (show "" ≠ "Expected assignment in for statement" by decide)).child expression
    (show "" ≠ "Expected expression in for statement assignment" by decide)
  have condition := (initial.expect semicolon (show "" ≠ "Expected semicolon in for statement assignment" by decide)).child
    expression (show "" ≠ "Expected expression in for statement condition" by decide)
  have header := ((condition.expect semicolon (show "" ≠ "Expected semicolon in for statement condition" by decide)).child
    update (show "" ≠ "Expected update expression in for statement" by decide)).expect closeParenthesis
    (show "" ≠ "Expected closing parenthesis in for statement" by decide)
  exact (header.child blocks (by decide)).finish _

private theorem parseIfStatement_agrees : Agrees p (parseIfStatement n block p) (parseIfStatement n' block' p) := by
  have expression := parseExpression_below enough enough' short
  refine parseAfter_agrees _ fun b start => ?_
  have first := (((start.expect openParenthesis (show "" ≠ "Expected open parenthesis in if statement" by decide)).child
    expression (show "" ≠ "Expected expression in if statement" by decide)).expect closeParenthesis
    (show "" ≠ "Expected close parenthesis in if statement" by decide)).child blocks
    (show "" ≠ "Expected block in if statement" by decide)
  simp only [← first.same]
  refine Proceeds.finish ?_ .ifStatement
  obtain ⟨-, ahead⟩ := first
  have first : Proceeds p _ _ := ⟨rfl, ahead⟩
  split
  · rename_i next
    exact (first.next next).child blocks (by decide)
  · exact first

private theorem parseStatement_agrees : Agrees p (parseStatement n block p) (parseStatement n' block' p) := by
  have later {q : Parser} (follows : Later p q) : q.tokens.length ≤ count := follows.length_le.trans short
  have inside {q : Parser} (follows : Later p q) := blocks.mono follows.length_le
  refine Agrees.wrap ?_ _
  refine (parseIfStatement_agrees enough enough' short blocks).orElse fun q1 follows1 => ?_
  refine (parseForStatement_agrees enough enough' (later follows1) (inside follows1)).orElse fun q2 step => ?_
  have follows2 := follows1.trans step
  refine (parseWhileStatement_agrees enough enough' (later follows2) (inside follows2)).orElse fun q3 step => ?_
  have follows3 := follows2.trans step
  refine (parseReturnStatement_agrees enough enough' (later follows3)).orElse fun q4 step => ?_
  have follows4 := follows3.trans step
  refine (parseAfter_agrees _ fun b start => (start.expect _ (by decide)).finish _).orElse fun q5 step => ?_
  have follows5 := follows4.trans step
  refine (parseAfter_agrees _ fun b start => (start.expect _ (by decide)).finish _).orElse fun q6 step => ?_
  have follows6 := follows5.trans step
  refine (parseSemicolon_agrees (parseMethodCall_of_expression enough enough' (later follows6)) (by decide)).orElse
    fun q7 step => ?_
  exact parseSemicolon_agrees (parseAssignment_agrees enough enough' (later (follows6.trans step))) (by decide)

end

omit enough enough' short in
private theorem parseFieldLength_proceeds {b : Building} (start : Proceeds p b b) :
    Proceeds p (parseFieldLength b) (parseFieldLength b) := by
  rw [parseFieldLength]
  cases next : b.2.nextToken openSquareBracket with
  | none => exact start
  | some found =>
    have inside := start.next next
    have length : Agrees found.2 (parseIntLiteral found.2) (parseIntLiteral found.2) := parseTable_agrees _ _ _
    refine Proceeds.expect ⟨rfl, ?_⟩ closeSquareBracket (by decide)
    cases parsed : parseIntLiteral found.2 with
    | mk child q =>
      rw [parsed] at length
      cases child with
      | none => exact inside.ahead.trans length.follows
      | some child => exact inside.ahead.trans length.follows

omit enough enough' short in
private theorem parseFieldIdentifier_agrees (loops : p.tokens.length ≤ n) (loops' : p.tokens.length ≤ n') :
    Agrees p (parseFieldIdentifier n p) (parseFieldIdentifier n' p) := by
  have name := parseIdentifier_agrees p
  rw [parseFieldIdentifier, parseFieldIdentifier]
  cases found : parseIdentifier p with
  | mk child q =>
    rw [found] at name
    cases child with
    | none => exact name
    | some child =>
      have initializer : AgreeBelow p.tokens.length (parseInitializer n) (parseInitializer n') :=
        fun q shorter => parseInitializer_agrees q (shorter.le.trans loops) (shorter.le.trans loops')
      have start : Proceeds p ([child], q) ([child], q) := ⟨rfl, name.ahead rfl⟩
      refine Proceeds.finish ?_ .fieldIdentifier
      split
      · exact parseFieldLength_proceeds start
      · rename_i next
        exact ((parseFieldLength_proceeds start).next next).child initializer (by decide)

omit enough enough' short in
private theorem parseFieldIdentifiers_agrees (loops : p.tokens.length ≤ n) (loops' : p.tokens.length ≤ n')
    (children : List AstNode) {q : Parser} (ahead : Ahead p q) :
    Agrees p (parseFieldIdentifiers n children q) (parseFieldIdentifiers n' children q) :=
  (parseSeparated_agrees semicolon (by decide) (by decide) n n' children ahead
    (fun _ shorter => parseFieldIdentifier_agrees (shorter.le.trans loops) (shorter.le.trans loops'))
    (ahead.shorter.trans_le loops) (ahead.shorter.trans_le loops')).finish .field

omit enough enough' short in
private theorem parseField_agrees (loops : p.tokens.length ≤ n) (loops' : p.tokens.length ≤ n') :
    Agrees p (parseField n p) (parseField n' p) := by
  rw [parseField, parseField]
  cases next : p.nextToken keywordConst with
  | none =>
    have type := parseType_agrees p
    simp only
    cases found : parseType p with
    | mk child q =>
      rw [found] at type
      cases child with
      | none => exact type
      | some child => exact parseFieldIdentifiers_agrees loops loops' _ (type.ahead rfl)
  | some found =>
    have type := (parseType_agrees found.2).require (show "" ≠ "Expected type in field declaration" by decide)
    exact parseFieldIdentifiers_agrees loops loops' _ ((nextToken_ahead next).trans type.follows)

omit short in
/-- By induction on the bound of the nesting. -/
private theorem parseBlock_agrees (m m' : Nat) {p : Parser} (short : p.tokens.length ≤ count)
    (nested : p.tokens.length < m)
    (nested' : p.tokens.length < m') : Agrees p (parseBlock n m p) (parseBlock n' m' p) := by
  induction m generalizing m' p with
  | zero => exact absurd nested (Nat.not_lt_zero _)
  | succ m ih =>
    cases m' with
    | zero => exact absurd nested' (Nat.not_lt_zero _)
    | succ m' =>
      have blocks : AgreeBelow p.tokens.length (parseBlock n m) (parseBlock n' m') := fun q shorter =>
        ih m' (shorter.le.trans short) (shorter.trans_le (Nat.lt_succ_iff.mp nested))
          (shorter.trans_le (Nat.lt_succ_iff.mp nested'))
      have fields : AgreeBelow p.tokens.length (parseField n) (parseField n') := fun q shorter =>
        parseField_agrees ((shorter.le.trans short).trans (loops_le enough)) ((shorter.le.trans short).trans (loops_le enough'))
      have statements : AgreeBelow p.tokens.length (parseStatement n (parseBlock n m)) (parseStatement n' (parseBlock n' m')) :=
        fun q shorter => parseStatement_agrees enough enough' (shorter.le.trans short) (blocks.mono shorter.le)
      rw [parseBlock, parseBlock]
      refine parseAfter_agrees _ fun b start => ?_
      have body := (start.many short fields (loops_le enough) (loops_le enough')).many short statements (loops_le enough)
        (loops_le enough')
      exact (body.expect _ (by decide)).finish _

omit enough enough' short in
private theorem parseMethodArgument_agrees (p : Parser) : Agrees p (parseMethodArgument p) (parseMethodArgument p) := by
  have type := parseType_agrees p
  rw [parseMethodArgument]
  cases found : parseType p with
  | mk child q =>
    rw [found] at type
    cases child with
    | none => exact type
    | some child =>
      have start : Proceeds p ([child], q) ([child], q) := ⟨rfl, type.ahead rfl⟩
      exact (start.child (fun q _ => parseIdentifier_agrees q) (by decide)).finish _

omit enough enough' short in
/-- Every turn consumes a parameter. -/
private theorem parseMethodArguments_proceeds (n n' : Nat) {b b' : Building} (start : Proceeds p b b')
    (loops : b.2.tokens.length < n)
    (loops' : b.2.tokens.length < n') : Proceeds p (parseMethodArguments n b) (parseMethodArguments n' b') := by
  induction n generalizing n' b b' with
  | zero => exact absurd loops (Nat.not_lt_zero _)
  | succ n ih =>
    cases n' with
    | zero => exact absurd loops' (Nat.not_lt_zero _)
    | succ n' =>
      obtain ⟨rfl, ahead⟩ := start
      rw [parseMethodArguments, parseMethodArguments]
      cases next : b.2.nextToken closeParenthesis with
      | some found => exact ⟨rfl, ahead.trans (nextToken_ahead next).toLater⟩
      | none =>
        have argument := parseMethodArgument_agrees b.2
        simp only
        cases found : parseMethodArgument b.2 with
        | mk child q =>
          rw [found] at argument
          cases child with
          | none => exact ⟨rfl, (ahead.trans argument.follows).trans (parseError_later q (by decide))⟩
          | some child =>
            have further := argument.ahead rfl
            have go {r : Parser} (follows : Later q r) :
                Proceeds p (parseMethodArguments n (b.1 ++ [child], r)) (parseMethodArguments n' (b.1 ++ [child], r)) := by
              have shorter := (further.trans follows).shorter
              exact ih n' ⟨rfl, ahead.trans (further.trans follows).toLater⟩
                (shorter.trans_le (Nat.lt_succ_iff.mp loops)) (shorter.trans_le (Nat.lt_succ_iff.mp loops'))
            simp only
            cases next' : q.nextToken comma with
            | none => exact go (Later.refl q)
            | some found' =>
              refine go ((nextToken_ahead next').toLater.trans ?_)
              split
              · exact parseError_later _ (by decide)
              · exact Later.refl _

omit enough enough' short in
private theorem parseVoid_agrees (p : Parser) : Agrees p (parseVoid p) (parseVoid p) := by
  rw [parseVoid]
  cases next : p.nextToken keywordVoid with
  | none => exact Agrees.nothing p
  | some found => exact Agrees.found (nextToken_ahead next)

private theorem parseMethod_agrees : Agrees p (parseMethod n p) (parseMethod n' p) := by
  have type := (parseVoid_agrees p).orElse fun q _ => parseType_agrees q
  have blocks : AgreeBelow p.tokens.length (parseBlock n n) (parseBlock n' n') := fun q shorter =>
    parseBlock_agrees enough enough' n n' (shorter.le.trans short) ((shorter.trans_le short).trans_le (loops_le enough))
      ((shorter.trans_le short).trans_le (loops_le enough'))
  rw [parseMethod, parseMethod]
  cases found : (parseVoid p).orElse parseType with
  | mk child q =>
    rw [found] at type
    cases child with
    | none => exact type
    | some child =>
      have start : Proceeds p ([child], q) ([child], q) := ⟨rfl, type.ahead rfl⟩
      have head := (start.child (fun q _ => parseIdentifier_agrees q)
        (show "" ≠ "Expected identifier in method declaration" by decide)).expect openParenthesis
        (show "" ≠ "Expected parenthesis in method declaraction" by decide)
      have header := parseMethodArguments_proceeds n n' head ((head.ahead.shorter.trans_le short).trans_le (loops_le enough))
        ((head.ahead.shorter.trans_le short).trans_le (loops_le enough'))
      exact (header.child blocks (by decide)).finish _

omit enough enough' short in
private theorem parseImport_agrees (p : Parser) : Agrees p (parseImport p) (parseImport p) :=
  parseAfter_agrees _ fun _ start => ((start.child (fun q _ => parseIdentifier_agrees q)
    (show "" ≠ "Expected identifier in import declaration" by decide)).expect _ (by decide)).finish _

/-- The fuel makes no difference once it exceeds the tokens. -/
theorem parseProgram_agrees : parseProgram n p = parseProgram n' p ∧ Later p (parseProgram n p).2 := by
  have loops := loops_lt enough
  have loops' := loops_lt enough'
  have fields {q : Parser} (follows : Later p q) : AgreeBelow (q.tokens.length + 1)
      (fun p => if peekField p then parseField n p else (none, p)) (fun p => if peekField p then parseField n' p else (none, p)) := by
    intro r shorter
    have le : r.tokens.length ≤ count := (Nat.lt_succ_iff.mp shorter).trans (follows.length_le.trans short)
    dsimp only
    by_cases field : peekField r = true
    · rw [if_pos field, if_pos field]
      exact parseField_agrees (le.trans loops.le) (le.trans loops'.le)
    · rw [if_neg field, if_neg field]
      exact Agrees.nothing r
  have methods {q : Parser} (follows : Later p q) : AgreeBelow (q.tokens.length + 1) (parseMethod n) (parseMethod n') :=
    fun r shorter => parseMethod_agrees enough enough'
      ((Nat.lt_succ_iff.mp shorter).trans (follows.length_le.trans short))
  obtain ⟨same1, follows1⟩ := parseMany_agrees n n' ([], p) (short.trans_lt loops) (short.trans_lt loops')
    (fun q _ => parseImport_agrees q)
  obtain ⟨same2, step2⟩ := parseMany_agrees n n' (parseMany parseImport n ([], p))
    ((follows1.length_le.trans short).trans_lt loops) ((follows1.length_le.trans short).trans_lt loops') (fields follows1)
  have follows2 := follows1.trans step2
  obtain ⟨same3, step3⟩ := parseMany_agrees n n'
    (parseMany (fun p => if peekField p then parseField n p else (none, p)) n (parseMany parseImport n ([], p)))
    ((follows2.length_le.trans short).trans_lt loops) ((follows2.length_le.trans short).trans_lt loops') (methods follows2)
  have follows3 := follows2.trans step3
  constructor
  · simp only [parseProgram, ← same1, ← same2, ← same3]
  · rw [parseProgram]
    split
    · exact follows3
    · exact follows3.trans (parseError_later _ (by decide))

end

def parseConst (p : Parser) : Parsed :=
  match p.nextToken keywordConst with
  | none => (none, p)
  | some (_, p) => (some (inner .const []), p)

inductive ParseFunction where
  | identifier | charLiteral | stringLiteral | boolLiteral | intLiteral | type | binaryOperator | incrementOperator
  | assignOperator | literalNegation | literal | arrayLiteral | initializer | methodCallArgument | methodCall
  | binaryExpression (length : Option Nat) | parenthesisExpression | notExpression | negateExpression | lenExpression
  | unaryExpression | expressionWithLength (length : Option Nat) | expression | assignment | location | forUpdate
  | continueStatement | breakStatement | returnStatement | whileStatement | forStatement | ifStatement
  | methodCallStatement | assignStatement | statement | block | methodArgument | void | method | fieldIdentifier | const
  | field | import

def ParseFunction.run (n : Nat) : ParseFunction → Parser → Parsed
  | .identifier => parseIdentifier
  | .charLiteral => parseCharLiteral
  | .stringLiteral => parseStringLiteral
  | .boolLiteral => parseBoolLiteral
  | .intLiteral => parseIntLiteral
  | .type => parseType
  | .binaryOperator => parseBinaryOperator
  | .incrementOperator => parseIncrementOperator
  | .assignOperator => parseAssignOperator
  | .literalNegation => parseLiteralNegation
  | .literal => parseLiteral
  | .arrayLiteral => parseArrayLiteral n
  | .initializer => parseInitializer n
  | .methodCallArgument => parseMethodCallArgument (parseExpression n)
  | .methodCall => parseMethodCall (parseExpression n) n
  | .binaryExpression length => parseBinaryExpression (parseExpressionWithLength n) length
  | .parenthesisExpression => parseParenthesisExpression (parseExpression n)
  | .notExpression => parseNotExpression (parseUnaryExpression n)
  | .negateExpression => parseNegateExpression (parseUnaryExpression n)
  | .lenExpression => parseLenExpression
  | .unaryExpression => parseUnaryExpression n
  | .expressionWithLength length => parseExpressionWithLength n length
  | .expression => parseExpression n
  | .assignment => parseAssignment n
  | .location => parseLocation (parseExpression n)
  | .forUpdate => parseForUpdate n
  | .continueStatement => parseContinueStatement
  | .breakStatement => parseBreakStatement
  | .returnStatement => parseReturnStatement n
  | .whileStatement => parseWhileStatement n (parseBlock n n)
  | .forStatement => parseForStatement n (parseBlock n n)
  | .ifStatement => parseIfStatement n (parseBlock n n)
  | .methodCallStatement => parseMethodCallStatement n
  | .assignStatement => parseAssignStatement n
  | .statement => parseStatement n (parseBlock n n)
  | .block => parseBlock n n
  | .methodArgument => parseMethodArgument
  | .void => parseVoid
  | .method => parseMethod n
  | .fieldIdentifier => parseFieldIdentifier n
  | .const => parseConst
  | .field => parseField n
  | .import => parseImport

private theorem parseConst_agrees (p : Parser) : Agrees p (parseConst p) (parseConst p) := by
  rw [parseConst]
  cases next : p.nextToken keywordConst with
  | none => exact Agrees.nothing p
  | some found => exact Agrees.found (nextToken_ahead next)

/-- The bound that the whole parser keeps for so many tokens. -/
def parserDepth (count : Nat) : Nat := expressionDepth count count

section
variable {n n' : Nat} {p : Parser}

private theorem expressionDepth_le {length : Option Nat} (enough : parserDepth p.tokens.length ≤ n) :
    expressionDepth p.tokens.length (window length p.tokens).length ≤ n :=
  le_trans (Nat.add_le_add_right (Nat.add_le_add_left (window_length_le _ _) _) 2) enough

private theorem unaryDepth_le {q : Parser} (le : q.tokens.length ≤ p.tokens.length)
    (enough : parserDepth p.tokens.length ≤ n) :
    unaryDepth q.tokens.length ≤ n := by
  have step : q.tokens.length * (q.tokens.length + 3) ≤ p.tokens.length * (p.tokens.length + 3) :=
    Nat.mul_le_mul le (Nat.add_le_add_right le 3)
  rw [parserDepth, expressionDepth] at enough
  rw [unaryDepth]
  omega

variable (enough : parserDepth p.tokens.length ≤ n) (enough' : parserDepth p.tokens.length ≤ n')
include enough enough'

private theorem parseExpressionWithLength_below (length : Option Nat) :
    AgreeBelow p.tokens.length (parseExpressionWithLength n length) (parseExpressionWithLength n' length) := by
  intro q shorter
  have lower : ∀ {n}, parserDepth p.tokens.length ≤ n →
      expressionDepth q.tokens.length (window length q.tokens).length ≤ n := fun enough =>
    (expressionDepth_lt shorter (window_length_le length q.tokens)).le.trans (unaryDepth_le le_rfl enough)
  exact (parseExpressions_agree n n' q).2 length (lower enough) (lower enough')

private theorem ParseFunction.run_agrees (f : ParseFunction) : Agrees p (f.run n p) (f.run n' p) := by
  have expression : AgreeBelow p.tokens.length (parseExpression n) (parseExpression n') :=
    parseExpressionWithLength_below enough enough' none
  have unary : AgreeBelow p.tokens.length (parseUnaryExpression n) (parseUnaryExpression n') := fun q shorter =>
    (parseExpressions_agree n n' q).1 (unaryDepth_le shorter.le enough) (unaryDepth_le shorter.le enough')
  have withLength (length : Option Nat) :
      Agrees p (parseExpressionWithLength n length p) (parseExpressionWithLength n' length p) :=
    (parseExpressions_agree n n' p).2 length (expressionDepth_le enough) (expressionDepth_le enough')
  have block {q : Parser} (le : q.tokens.length ≤ p.tokens.length) : Agrees q (parseBlock n n q) (parseBlock n' n' q) :=
    parseBlock_agrees enough enough' n n' le (le.trans_lt (loops_lt enough)) (le.trans_lt (loops_lt enough'))
  have blocks : AgreeBelow p.tokens.length (parseBlock n n) (parseBlock n' n') := fun q shorter => block shorter.le
  cases f with
  | identifier => exact parseIdentifier_agrees p
  | type => exact parseType_agrees p
  | literal => exact parseLiteral_agrees p
  | charLiteral | stringLiteral | boolLiteral | intLiteral | binaryOperator | incrementOperator | assignOperator
  | literalNegation => exact parseTable_agrees _ _ p
  | arrayLiteral => exact parseArrayLiteral_agrees p (loops_le enough) (loops_le enough')
  | initializer => exact parseInitializer_agrees p (loops_le enough) (loops_le enough')
  | methodCallArgument =>
    refine parseMethodCallArgument_agrees fun q follows => parseExpression_agrees enough enough' follows.length_le
  | methodCall => exact parseMethodCall_of_expression enough enough' le_rfl
  | binaryExpression length =>
    refine parseBinaryExpression_agrees length (fun count _ => withLength (some count)) fun length' => ?_
    exact parseExpressionWithLength_below enough enough' length'
  | parenthesisExpression => exact parseParenthesisExpression_agrees expression
  | notExpression => exact parseNotExpression_agrees unary
  | negateExpression => exact parseNegateExpression_agrees unary
  | lenExpression => exact parseLenExpression_agrees p
  | unaryExpression => exact (parseExpressions_agree n n' p).1 (unaryDepth_le le_rfl enough) (unaryDepth_le le_rfl enough')
  | expressionWithLength length => exact withLength length
  | expression => exact withLength none
  | assignment => exact parseAssignment_agrees enough enough' le_rfl
  | location => exact parseLocation_agrees expression
  | forUpdate => exact parseForUpdate_agrees enough enough' le_rfl
  | continueStatement | breakStatement =>
    exact parseAfter_agrees _ fun b start => (start.expect _ (by decide)).finish _
  | returnStatement => exact parseReturnStatement_agrees enough enough' le_rfl
  | whileStatement => exact parseWhileStatement_agrees enough enough' le_rfl blocks
  | forStatement => exact parseForStatement_agrees enough enough' le_rfl blocks
  | ifStatement => exact parseIfStatement_agrees enough enough' le_rfl blocks
  | methodCallStatement =>
    exact parseSemicolon_agrees (parseMethodCall_of_expression enough enough' le_rfl) (by decide)
  | assignStatement => exact parseSemicolon_agrees (parseAssignment_agrees enough enough' le_rfl) (by decide)
  | statement => exact parseStatement_agrees enough enough' le_rfl blocks
  | block => exact block le_rfl
  | methodArgument => exact parseMethodArgument_agrees p
  | void => exact parseVoid_agrees p
  | method => exact parseMethod_agrees enough enough' le_rfl
  | fieldIdentifier => exact parseFieldIdentifier_agrees (loops_le enough) (loops_le enough')
  | const => exact parseConst_agrees p
  | field => exact parseField_agrees (loops_le enough) (loops_le enough')
  | «import» => exact parseImport_agrees p

end

private theorem parserDepth_le {count count' n : Nat} (le : count' ≤ count) (enough : parserDepth count ≤ n) :
    parserDepth count' ≤ n :=
  le_trans (Nat.add_le_add_right (Nat.add_le_add (Nat.mul_le_mul le (Nat.add_le_add_right le 3)) le) 2) enough

def Parser.position (tokens : List Token) (p : Parser) : Nat := tokens.length - p.tokens.length

/-- The index of the token that `new_node` reads: `CLAMP(position - 1, 0, token_count - 1)` in 32 bits. -/
def newNodeIndex (tokenCount position : Nat) : Nat := min ((position + (2 ^ 32 - 1)) % 2 ^ 32) (tokenCount - 1)

def parseErrorIndex (position : Nat) : Nat := if position = 0 then 0 else position - 1

def peekIndex (position relative : Nat) : Nat := (position + relative) % 2 ^ 32

/-- The parser stands in the list of tokens, and what it reads there is inside. No relative position that it peeks at is more
than the number of tokens or 3. -/
structure Parser.Inside (tokens : List Token) (p : Parser) : Prop where
  position_le : p.position tokens ≤ tokens.length
  remaining : p.tokens = tokens.drop (p.position tokens)
  newNode : newNodeIndex tokens.length (p.position tokens) < tokens.length
  error : parseErrorIndex (p.position tokens) < tokens.length
  next (type : TokenType) : p.nextToken type =
    if inside : p.position tokens < tokens.length then
      if tokens[p.position tokens].type = type then
        some (tokens[p.position tokens], ⟨tokens.drop (p.position tokens + 1), p.errors⟩)
      else none
    else none
  peek (i : Nat) (type : TokenType) : i ≤ max tokens.length 3 → p.peekToken i type =
    if inside : peekIndex (p.position tokens) i < tokens.length then tokens[peekIndex (p.position tokens) i].type == type
    else false
  operator (length : Option Nat) (index : Nat) (type : TokenType) : (index, type) ∈ findBinaryOperatorIndices length p →
    ∃ inside : p.position tokens + index < tokens.length, tokens[p.position tokens + index].type = type

section
variable {tokens : List Token} {p : Parser} {position : Nat} (remaining : p.tokens = tokens.drop position)
include remaining

/-- The next token is the one at the position. -/
private theorem nextToken_at (type : TokenType) : p.nextToken type =
    if inside : position < tokens.length then
      if tokens[position].type = type then some (tokens[position], ⟨tokens.drop (position + 1), p.errors⟩) else none
    else none := by
  rcases p with ⟨list, errors⟩
  by_cases inside : position < tokens.length
  · rw [dif_pos inside]
    rw [List.drop_eq_getElem_cons inside] at remaining
    obtain rfl : list = tokens[position] :: tokens.drop (position + 1) := remaining
    rfl
  · rw [dif_neg inside]
    rw [List.drop_eq_nil_of_le (Nat.le_of_not_lt inside)] at remaining
    obtain rfl : list = [] := remaining
    rfl

private theorem peekToken_at (i : Nat) (type : TokenType) : p.peekToken i type =
    if inside : position + i < tokens.length then tokens[position + i].type == type else false := by
  rw [Parser.peekToken, remaining, List.getElem?_drop]
  by_cases inside : position + i < tokens.length
  · rw [dif_pos inside, List.getElem?_eq_getElem inside]
    rfl
  · rw [dif_neg inside, List.getElem?_eq_none (Nat.le_of_not_lt inside)]
    rfl

end

private theorem peekIndex_eq {tokens : List Token} (few : tokens.length < 2 ^ 31) {position relative : Nat}
    (inside : position ≤ tokens.length) (near : relative ≤ max tokens.length 3) :
    peekIndex position relative = position + relative := by
  apply Nat.mod_eq_of_lt
  omega

/-- Below 2^31 tokens no position wraps. -/
private theorem Parser.inside_of_suffix {tokens : List Token} (nonempty : tokens ≠ []) (few : tokens.length < 2 ^ 31)
    {p : Parser}
    (suffix : p.tokens <:+ tokens) : p.Inside tokens := by
  have positive : 0 < tokens.length := List.length_pos_iff.mpr nonempty
  have le : p.position tokens ≤ tokens.length := Nat.sub_le _ _
  have remaining : p.tokens = tokens.drop (p.position tokens) := List.suffix_iff_eq_drop.mp suffix
  refine ⟨le, remaining, ?_, ?_, fun type => ?_, fun i type near => ?_, fun length index type mem => ?_⟩
  · exact (Nat.min_le_right _ _).trans_lt (Nat.sub_lt positive Nat.one_pos)
  · rw [parseErrorIndex]
    split
    · exact positive
    · omega
  · exact nextToken_at remaining type
  · simp only [peekIndex_eq few le near]
    exact peekToken_at remaining i type
  · obtain ⟨-, -, token, at_index, same⟩ := findBinaryOperatorIndices_mem mem
    rw [remaining, List.getElem?_drop] at at_index
    obtain ⟨inside, found⟩ := List.getElem?_eq_some_iff.mp at_index
    exact ⟨inside, by rw [found]; exact same⟩

/-- Where a window has an operator, the right side gets no negative length, and the parser that is put back to the
operator behind the left side makes a node of it. -/
def SplitsAtOperator (n : Nat) (length : Option Nat) (p : Parser) : Prop :=
  ∀ index indices, findBinaryOperatorIndices length p = index :: indices →
    (∀ count, length = some count → getLowestPrecedenceIndex (index :: indices) + 1 ≤ count) ∧
    ∃ operator, p.tokens[getLowestPrecedenceIndex (index :: indices)]? = some operator ∧ operator.type ∈ BINARY_OPERATORS ∧
      (parseBinaryOperator (Parser.moveTo (p.tokens.drop (getLowestPrecedenceIndex (index :: indices)))
        "Expected binary operator in expression" ((parseExpressionWithLength n
          (some (getLowestPrecedenceIndex (index :: indices))) p).require "Expected expression before operator").2)).1 =
        some (leaf .binaryOperator operator)

/-- An expression with operators is split at one of them. -/
private theorem splitsAtOperator (n : Nat) (length : Option Nat) {p : Parser}
    (enough : parserDepth p.tokens.length ≤ n) :
    SplitsAtOperator n length p := by
  intro index indices found
  obtain ⟨inside, operator, at_index, type⟩ := operatorIndex_spec found
  refine ⟨fun count some => ?_, operator, at_index, type, ?_⟩
  · rw [some] at inside
    exact inside.trans_le (List.length_take_le _ _)
  · have left := ((parseExpressions_agree n n p).2 (some (getLowestPrecedenceIndex (index :: indices)))
      (expressionDepth_le enough) (expressionDepth_le enough)).require
      (show "" ≠ "Expected expression before operator" by decide)
    obtain ⟨bound, same⟩ := List.getElem?_eq_some_iff.mp at_index
    have tokens := (@moveTo_tokens p _ (getLowestPrecedenceIndex (index :: indices))
      "Expected binary operator in expression" left.follows.suffix).trans (List.drop_eq_getElem_cons bound)
    rw [same] at tokens
    rw [parseBinaryOperator, parseTable_of_head tokens type]

/-- The parser ends on every list of less than 2^31 tokens: beyond a bound on the depth nothing changes, and its end is never reached. On the way
it stays in the list, a node costs a token, and the sides of an operator are where they should be. -/
theorem parserParse_terminates {tokens : List Token} (nonempty : tokens ≠ []) (few : tokens.length < 2 ^ 31) {n n' : Nat}
    (enough : parserDepth tokens.length ≤ n) (enough' : parserDepth tokens.length ≤ n') :
    parserParse n tokens = parserParse n' tokens ∧ Later ⟨tokens, []⟩ (parseProgram n ⟨tokens, []⟩).2 ∧
    ∀ p : Parser, p.tokens <:+ tokens → p.Inside tokens ∧ (∀ f : ParseFunction, Agrees p (f.run n p) (f.run n' p)) ∧
      ∀ length, SplitsAtOperator n length p := by
  obtain ⟨same, follows⟩ := @parseProgram_agrees n n' tokens.length enough enough' ⟨tokens, []⟩ le_rfl
  refine ⟨?_, follows, fun p suffix => ⟨Parser.inside_of_suffix nonempty few suffix, fun f => ?_, fun length => ?_⟩⟩
  · rw [parserParse, parserParse, if_neg nonempty, if_neg nonempty, same]
  · exact f.run_agrees (parserDepth_le suffix.length_le enough) (parserDepth_le suffix.length_le enough')
  · exact splitsAtOperator n length (parserDepth_le suffix.length_le enough)

/-- `) - ] !` -/
theorem parserParse_terminates_malformed :
    parserParse 34 [⟨closeParenthesis, 0, 1⟩, ⟨sub, 2, 1⟩, ⟨closeSquareBracket, 4, 1⟩, ⟨.not, 6, 1⟩] =
      parserParse 99 [⟨closeParenthesis, 0, 1⟩, ⟨sub, 2, 1⟩, ⟨closeSquareBracket, 4, 1⟩, ⟨.not, 6, 1⟩] :=
  (parserParse_terminates (List.cons_ne_nil _ _) (by decide) (by decide) (by decide)).1

end Roast
