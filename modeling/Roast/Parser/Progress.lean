import Mathlib.Tactic.Linarith
import Roast.Parser.Sound

/-! How the functions of the parser move: never back behind where they began, and at least one token ahead with a node.
A bound on the depth that depends on the number of the tokens only is never reached in an expression. -/
namespace Roast
open TokenType AstNode

/-- A later state of the parser. The message of an exhausted bound, which is empty, is not among the new ones. -/
structure Later (p q : Parser) : Prop where
  suffix : q.tokens <:+ p.tokens
  messages : ∃ messages, q.errors = p.errors ++ messages ∧ "" ∉ messages

structure Ahead (p q : Parser) : Prop extends Later p q where
  shorter : q.tokens.length < p.tokens.length

/-- From `p`, two calls of a function under different bounds have one result: a later state, and an advance where there
is a node. -/
structure Agrees (p : Parser) (parsed parsed' : Parsed) : Prop where
  same : parsed = parsed'
  follows : Later p parsed.2
  advances : parsed.1.isSome → parsed.2.tokens.length < p.tokens.length

structure Proceeds (p : Parser) (b b' : Building) : Prop where
  same : b = b'
  ahead : Ahead p b.2

def AgreeBelow (length : Nat) (parse parse' : Parser → Parsed) : Prop :=
  ∀ q : Parser, q.tokens.length < length → Agrees q (parse q) (parse' q)

theorem AgreeBelow.mono {length length' : Nat} {parse parse' : Parser → Parsed} (agree : AgreeBelow length parse parse')
    (le : length' ≤ length) : AgreeBelow length' parse parse' :=
  fun q short => agree q (short.trans_le le)

section
variable {p q r : Parser} {type : TokenType} {message : String} {token : Token}

theorem Later.refl (p : Parser) : Later p p := ⟨List.suffix_rfl, [], (List.append_nil _).symm, List.not_mem_nil⟩

theorem Later.trans (first : Later p q) (second : Later q r) : Later p r := by
  obtain ⟨messages, errors, nonempty⟩ := first.messages
  obtain ⟨messages', errors', nonempty'⟩ := second.messages
  refine ⟨second.suffix.trans first.suffix, messages ++ messages', ?_, ?_⟩
  · rw [errors', errors, List.append_assoc]
  · rw [List.mem_append]
    exact not_or_intro nonempty nonempty'

theorem Later.length_le (follows : Later p q) : q.tokens.length ≤ p.tokens.length := follows.suffix.length_le

theorem Ahead.trans (first : Ahead p q) (second : Later q r) : Ahead p r :=
  ⟨first.toLater.trans second, second.length_le.trans_lt first.shorter⟩

private theorem Later.trans_ahead (first : Later p q) (second : Ahead q r) : Ahead p r :=
  ⟨first.trans second.toLater, second.shorter.trans_le first.length_le⟩

theorem parseError_later (p : Parser) (nonempty : "" ≠ message) : Later p (p.parseError message) :=
  ⟨List.suffix_rfl, [message], rfl, fun mem => nonempty (List.mem_singleton.mp mem)⟩

private theorem nextTokenInTable_ahead {table : List TokenType} (next : p.nextTokenInTable table = some (token, q)) :
    Ahead p q := by
  obtain ⟨-, tokens, errors⟩ := Parser.nextTokenInTable_eq_some next
  refine ⟨⟨?_, [], ?_, List.not_mem_nil⟩, ?_⟩
  · rw [tokens]
    exact List.suffix_cons _ _
  · rw [errors, List.append_nil]
  · rw [tokens]
    exact Nat.lt_succ_self _

theorem nextToken_ahead (next : p.nextToken type = some (token, q)) : Ahead p q := by
  rw [Parser.nextToken_eq_inTable] at next
  exact nextTokenInTable_ahead next

theorem expectToken_later (type : TokenType) (p : Parser) (nonempty : "" ≠ message) : Later p (p.expectToken type message) := by
  rw [Parser.expectToken]
  cases next : p.nextToken type with
  | none => exact parseError_later p nonempty
  | some found => exact (nextToken_ahead next).toLater

end

def Parser.skipToken (type : TokenType) (p : Parser) : Parser :=
  match p.nextToken type with
  | some (_, p) => p
  | none => p

private theorem skipToken_later (type : TokenType) (p : Parser) : Later p (p.skipToken type) := by
  rw [Parser.skipToken]
  cases next : p.nextToken type with
  | none => exact Later.refl p
  | some found => exact (nextToken_ahead next).toLater

section
variable {p : Parser} {parsed parsed' : Parsed} {message : String}

theorem Agrees.ahead (agrees : Agrees p parsed parsed') {node : AstNode} {q : Parser} (found : parsed = (some node, q)) :
    Ahead p q := by
  subst found
  exact ⟨agrees.follows, agrees.advances rfl⟩

theorem Agrees.nothing (p : Parser) : Agrees p (none, p) (none, p) :=
  ⟨rfl, Later.refl p, fun impossible => absurd impossible Bool.false_ne_true⟩

theorem Agrees.found {node : AstNode} {q : Parser} (ahead : Ahead p q) : Agrees p (some node, q) (some node, q) :=
  ⟨rfl, ahead.toLater, fun _ => ahead.shorter⟩

theorem Agrees.after {q : Parser} (follows : Later p q) (agrees : Agrees q parsed parsed') : Agrees p parsed parsed' :=
  ⟨agrees.same, follows.trans agrees.follows, fun some => (agrees.advances some).trans_le follows.length_le⟩

theorem Agrees.require (agrees : Agrees p parsed parsed') (nonempty : "" ≠ message) :
    Agrees p (parsed.require message) (parsed'.require message) := by
  obtain ⟨rfl, follows, advances⟩ := agrees
  rcases parsed with ⟨_ | node, q⟩
  · exact ⟨rfl, follows.trans (parseError_later q nonempty), fun impossible => absurd impossible Bool.false_ne_true⟩
  · exact ⟨rfl, follows, advances⟩

theorem Agrees.wrap (agrees : Agrees p parsed parsed') (build : AstNode → AstNode) :
    Agrees p (parsed.wrap build) (parsed'.wrap build) := by
  obtain ⟨rfl, follows, advances⟩ := agrees
  rcases parsed with ⟨_ | node, q⟩
  · exact ⟨rfl, follows, advances⟩
  · exact ⟨rfl, follows, fun _ => advances rfl⟩

/-- The next alternative starts in a state that follows. -/
theorem Agrees.orElse (agrees : Agrees p parsed parsed') {next next' : Parser → Parsed}
    (agrees' : ∀ q, Later p q → Agrees q (next q) (next' q)) : Agrees p (parsed.orElse next) (parsed'.orElse next') := by
  obtain ⟨rfl, follows, advances⟩ := agrees
  rcases parsed with ⟨_ | node, q⟩
  · exact (agrees' q follows).after follows
  · exact ⟨rfl, follows, advances⟩

end

section
variable {p : Parser} {b b' : Building} {message : String}

theorem Proceeds.expect (proceeds : Proceeds p b b') (type : TokenType) (nonempty : "" ≠ message) :
    Proceeds p (b.expect type message) (b'.expect type message) := by
  obtain ⟨rfl, ahead⟩ := proceeds
  exact ⟨rfl, ahead.trans (expectToken_later type b.2 nonempty)⟩

theorem Proceeds.child (proceeds : Proceeds p b b') {parse parse' : Parser → Parsed}
    (agree : AgreeBelow p.tokens.length parse parse') (nonempty : "" ≠ message) :
    Proceeds p (b.child parse message) (b'.child parse' message) := by
  obtain ⟨rfl, ahead⟩ := proceeds
  have agrees := (agree b.2 ahead.shorter).require nonempty
  rw [Building.child, Building.child, ← agrees.same]
  exact ⟨rfl, ahead.trans agrees.follows⟩

theorem Proceeds.node (proceeds : Proceeds p b b') (build : List AstNode → AstNode) :
    Agrees p (some (build b.1), b.2) (some (build b'.1), b'.2) := by
  obtain ⟨rfl, ahead⟩ := proceeds
  exact Agrees.found ahead

theorem Proceeds.finish (proceeds : Proceeds p b b') (type : AstNodeType) : Agrees p (b.finish type) (b'.finish type) :=
  proceeds.node (inner type)

theorem parseAfter_agrees (type : TokenType) {build build' : Building → Parsed}
    (agrees : ∀ b, Proceeds p b b → Agrees p (build b) (build' b)) :
    Agrees p (parseAfter type build p) (parseAfter type build' p) := by
  rw [parseAfter, parseAfter]
  cases next : p.nextToken type with
  | none => exact Agrees.nothing p
  | some found => exact agrees ([], found.2) ⟨rfl, nextToken_ahead next⟩

end

theorem parseTable_agrees (table : List TokenType) (type : AstNodeType) (p : Parser) :
    Agrees p (parseTable table type p) (parseTable table type p) := by
  rw [parseTable]
  cases next : p.nextTokenInTable table with
  | none => exact Agrees.nothing p
  | some found => exact Agrees.found (nextTokenInTable_ahead next)

theorem parseTable_of_head {table : List TokenType} {type : AstNodeType} {p : Parser} {token : Token} {rest : List Token}
    (head : p.tokens = token :: rest) (mem : token.type ∈ table) :
    parseTable table type p = (some (leaf type token), ⟨rest, p.errors⟩) := by
  rcases p with ⟨list, errors⟩
  obtain rfl : list = token :: rest := head
  rw [parseTable, Parser.nextTokenInTable_cons, if_pos mem]

theorem parseIdentifier_agrees (p : Parser) : Agrees p (parseIdentifier p) (parseIdentifier p) := by
  rw [parseIdentifier]
  cases next : p.nextTokenInTable KEYWORDS with
  | none => exact parseTable_agrees _ _ p
  | some found => exact Agrees.found ((nextTokenInTable_ahead next).trans (parseError_later _ (by decide)))

theorem parseType_agrees (p : Parser) : Agrees p (parseType p) (parseType p) := by
  rw [parseType]
  cases next : p.nextToken keywordVoid with
  | none => exact parseTable_agrees _ _ p
  | some found => exact Agrees.found ((nextToken_ahead next).trans (parseError_later _ (by decide)))

/-- A negation that has been consumed is part of the node. -/
theorem parseLiteral_agrees (p : Parser) : Agrees p (parseLiteral p) (parseLiteral p) := by
  have literal (q : Parser) : Agrees q ((parseBoolLiteral q).orElse fun p => (parseIntLiteral p).orElse parseCharLiteral)
      ((parseBoolLiteral q).orElse fun p => (parseIntLiteral p).orElse parseCharLiteral) :=
    (parseTable_agrees _ _ q).orElse fun q _ => (parseTable_agrees _ _ q).orElse fun q _ => parseTable_agrees _ _ q
  rw [parseLiteral]
  cases negated : parseLiteralNegation p with
  | mk minus q =>
    have negation : Agrees p (minus, q) (minus, q) := by
      rw [← negated]
      exact parseTable_agrees [sub] .literalNegation p
    cases found : (parseBoolLiteral q).orElse fun p => (parseIntLiteral p).orElse parseCharLiteral with
    | mk child q1 =>
      have agrees := literal q
      rw [found] at agrees
      cases child with
      | some child => exact Agrees.found (negation.follows.trans_ahead ⟨agrees.follows, agrees.advances rfl⟩)
      | none =>
        have string := parseTable_agrees [stringLiteral] .stringLiteral q1
        rw [← parseStringLiteral] at string
        cases found' : parseStringLiteral q1 with
        | mk child q2 =>
          rw [found'] at string
          have follows : Later q q2 := agrees.follows.trans string.follows
          simp only [found']
          cases child with
          | some child =>
            have ahead : Ahead q q2 := agrees.follows.trans_ahead ⟨string.follows, string.advances rfl⟩
            exact Agrees.found ((negation.follows.trans_ahead ahead).trans (parseError_later _ (by decide)))
          | none =>
            cases minus with
            | none => exact ⟨rfl, negation.follows.trans follows, fun impossible => absurd impossible Bool.false_ne_true⟩
            | some node =>
              have ahead : Ahead p q2 := Ahead.trans ⟨negation.follows, negation.advances rfl⟩ follows
              exact Agrees.found (ahead.trans (parseError_later _ (by decide)))

/-- Every turn consumes a comma. -/
theorem parseSeparated_agrees {p : Parser} {item item' : Parser → Parsed} {itemMessage closeMessage : String}
    (close : TokenType) (nonempty : "" ≠ itemMessage) (nonempty' : "" ≠ closeMessage) (n n' : Nat)
    (children : List AstNode) {q : Parser} (ahead : Ahead p q) (agree : AgreeBelow p.tokens.length item item')
    (enough : q.tokens.length < n) (enough' : q.tokens.length < n') :
    Proceeds p (parseSeparated item itemMessage close closeMessage n children q)
      (parseSeparated item' itemMessage close closeMessage n' children q) := by
  induction n generalizing n' children q with
  | zero => exact absurd enough (Nat.not_lt_zero _)
  | succ n ih =>
    cases n' with
    | zero => exact absurd enough' (Nat.not_lt_zero _)
    | succ n' =>
      have agrees := (agree q ahead.shorter).require nonempty
      rw [parseSeparated, parseSeparated]
      simp only [← agrees.same]
      cases next : ((item q).require itemMessage).2.nextToken comma with
      | none => exact ⟨rfl, (ahead.trans agrees.follows).trans (expectToken_later _ _ nonempty')⟩
      | some found =>
        have comma := agrees.follows.trans_ahead (nextToken_ahead next)
        exact ih n' _ (ahead.trans comma.toLater) (by have := comma.shorter; omega) (by have := comma.shorter; omega)

theorem parseArrayLiteral_agrees {n n' : Nat} (p : Parser) (enough : p.tokens.length ≤ n) (enough' : p.tokens.length ≤ n') :
    Agrees p (parseArrayLiteral n p) (parseArrayLiteral n' p) := by
  rw [parseArrayLiteral, parseArrayLiteral]
  cases next : p.nextToken openCurlyBracket with
  | none => exact Agrees.nothing p
  | some found =>
    have ahead := nextToken_ahead next
    have proceeds := @parseSeparated_agrees p parseLiteral parseLiteral "Expected literal in array literal"
      "Expected closing brace or comma in array literal" closeCurlyBracket (by decide) (by decide) n n' [] found.2 ahead
      (fun q _ => parseLiteral_agrees q) (ahead.shorter.trans_le enough) (ahead.shorter.trans_le enough')
    exact proceeds.finish .arrayLiteral

theorem parseInitializer_agrees {n n' : Nat} (p : Parser) (enough : p.tokens.length ≤ n) (enough' : p.tokens.length ≤ n') :
    Agrees p (parseInitializer n p) (parseInitializer n' p) :=
  ((parseArrayLiteral_agrees p enough enough').orElse fun q _ => parseLiteral_agrees q).wrap _

section
variable {n n' : Nat} {p : Parser} {expression expression' unary unary' : Parser → Parsed}

theorem parseMethodCallArgument_agrees (agrees : ∀ q, Later p q → Agrees q (expression q) (expression' q)) :
    Agrees p (parseMethodCallArgument expression p) (parseMethodCallArgument expression' p) :=
  ((parseTable_agrees _ _ p).orElse agrees).wrap _

private theorem parseIdentifier_isSome (seen : p.peekToken 0 identifier = true) : (parseIdentifier p).1.isSome := by
  rcases p with ⟨_ | ⟨token, rest⟩, errors⟩
  · cases seen
  · have type : token.type = identifier := eq_of_beq seen
    rw [parseIdentifier, Parser.nextTokenInTable_cons, if_neg (by rw [type]; decide), parseTable,
      Parser.nextTokenInTable_cons, if_pos (by rw [type]; decide)]
    rfl

/-- The name that has been seen is there. -/
theorem parseMethodCall_agrees (enough : p.tokens.length ≤ n) (enough' : p.tokens.length ≤ n')
    (agree : AgreeBelow p.tokens.length expression expression') :
    Agrees p (parseMethodCall expression n p) (parseMethodCall expression' n' p) := by
  rw [parseMethodCall, parseMethodCall]
  by_cases seen : (p.peekToken 0 identifier && p.peekToken 1 openParenthesis) = true
  · rw [if_pos seen, if_pos seen]
    have name := parseIdentifier_agrees p
    have ahead : Ahead p (parseIdentifier p).2 :=
      ⟨name.follows, name.advances (parseIdentifier_isSome ((Bool.and_eq_true _ _).mp seen).1)⟩
    have argument : AgreeBelow p.tokens.length (parseMethodCallArgument expression) (parseMethodCallArgument expression') :=
      fun q short => parseMethodCallArgument_agrees fun q' follows => agree q' (follows.length_le.trans_lt short)
    have arguments {q : Parser} (ahead : Ahead p q) :=
      parseSeparated_agrees closeParenthesis (show "" ≠ "Expected argument in method call" by decide)
        (show "" ≠ "Expected comma or closing parenthesis in method call" by decide) n n' (parseIdentifier p).1.toList ahead
        argument (ahead.shorter.trans_le enough) (ahead.shorter.trans_le enough')
    have inside : Ahead p ((parseIdentifier p).2.skipToken openParenthesis) := ahead.trans (skipToken_later _ _)
    dsimp only
    split
    · rename_i closed
      exact Agrees.found (inside.trans (nextToken_ahead closed).toLater)
    · exact (arguments inside).node fun children => inner .methodCall (children ++ [inner .methodCallEnd []])
  · rw [if_neg seen, if_neg seen]
    exact Agrees.nothing p

theorem parseParenthesisExpression_agrees (agree : AgreeBelow p.tokens.length expression expression') :
    Agrees p (parseParenthesisExpression expression p) (parseParenthesisExpression expression' p) := by
  rw [parseParenthesisExpression, parseParenthesisExpression]
  cases next : p.nextToken openParenthesis with
  | none => exact Agrees.nothing p
  | some found =>
    have ahead := nextToken_ahead next
    have agrees := (agree found.2 ahead.shorter).require (show "" ≠ "Expected expresion in parenthesis" by decide)
    simp only [← agrees.same]
    have behind : Ahead p _ := (ahead.trans agrees.follows).trans
      (expectToken_later closeParenthesis _ (show "" ≠ "Expected closing parenthesis in expression" by decide))
    exact ⟨rfl, behind.toLater, fun _ => behind.shorter⟩

theorem parseNotExpression_agrees (agree : AgreeBelow p.tokens.length unary unary') :
    Agrees p (parseNotExpression unary p) (parseNotExpression unary' p) := by
  rw [parseNotExpression, parseNotExpression]
  cases next : p.nextToken .not with
  | none => exact Agrees.nothing p
  | some found =>
    have ahead := nextToken_ahead next
    have agrees := (agree found.2 ahead.shorter).require (show "" ≠ "Expected expression after not operator" by decide)
    simp only [← agrees.same]
    exact Agrees.found (ahead.trans agrees.follows)

theorem parseNegateExpression_agrees (agree : AgreeBelow p.tokens.length unary unary') :
    Agrees p (parseNegateExpression unary p) (parseNegateExpression unary' p) := by
  rw [parseNegateExpression, parseNegateExpression]
  by_cases negation : (p.peekToken 0 sub && (p.peekToken 1 hexLiteral || p.peekToken 1 decimalLiteral)) = true
  · rw [if_pos negation, if_pos negation]
    exact Agrees.nothing p
  rw [if_neg negation, if_neg negation]
  cases next : p.nextToken sub with
  | none => exact Agrees.nothing p
  | some found =>
    have ahead := nextToken_ahead next
    have agrees := (agree found.2 ahead.shorter).require (show "" ≠ "Expected expression after negate operator" by decide)
    simp only [← agrees.same]
    exact Agrees.found (ahead.trans agrees.follows)

theorem parseLenExpression_agrees (p : Parser) : Agrees p (parseLenExpression p) (parseLenExpression p) := by
  rw [parseLenExpression]
  cases next : p.nextToken keywordLen with
  | none => exact Agrees.nothing p
  | some found =>
    have start := (nextToken_ahead next).trans (expectToken_later openParenthesis _
      (show "" ≠ "Expected open parenthesis in len expression" by decide))
    have name := (parseIdentifier_agrees (found.2.expectToken openParenthesis
      "Expected open parenthesis in len expression")).require (show "" ≠ "Expected identifier in len expression" by decide)
    exact Agrees.found ((start.trans name.follows).trans (expectToken_later _ _ (by decide)))

theorem parseLocation_agrees (agree : AgreeBelow p.tokens.length expression expression') :
    Agrees p (parseLocation expression p) (parseLocation expression' p) := by
  rw [parseLocation, parseLocation]
  have name := parseIdentifier_agrees p
  cases found : parseIdentifier p with
  | mk child q =>
    rw [found] at name
    cases child with
    | none => exact name
    | some child =>
      have ahead := name.ahead rfl
      simp only
      cases next : q.nextToken openSquareBracket with
      | none => exact Agrees.found ahead
      | some found =>
        have inside := ahead.trans (nextToken_ahead next).toLater
        have index := (agree found.2 inside.shorter).require
          (show "" ≠ "Expected expression in identifier index" by decide)
        simp only [← index.same]
        exact Agrees.found ((inside.trans index.follows).trans (expectToken_later _ _ (by decide)))

end

/-- What the loop finds are operators at their places. -/
private theorem findOperators_mem {depth i : Nat} {previous : Option TokenType} {tokens : List Token} {index : Nat}
    {type : TokenType} (mem : (index, type) ∈ findOperators depth i previous tokens) :
    type ∈ BINARY_OPERATORS ∧ ∃ token place, tokens[place]? = some token ∧ token.type = type ∧ index = i + place := by
  induction tokens generalizing depth i previous with
  | nil => exact absurd mem List.not_mem_nil
  | cons token rest ih =>
    have later {depth : Nat} (mem : (index, type) ∈ findOperators depth (i + 1) (some token.type) rest) :
        type ∈ BINARY_OPERATORS ∧ ∃ other place, (token :: rest)[place]? = some other ∧ other.type = type ∧
          index = i + place := by
      obtain ⟨operator, other, place, at_place, same, shifted⟩ := ih mem
      exact ⟨operator, other, place + 1, at_place, same, by omega⟩
    rw [findOperators] at mem
    split at mem
    · exact absurd mem List.not_mem_nil
    · simp only at mem
      split at mem
      · rename_i binary
        rcases List.mem_cons.mp mem with same | mem
        · cases same
          exact ⟨isBinaryOperator_mem binary.2, token, 0, rfl, rfl, rfl⟩
        · exact later mem
      · exact later mem

/-- The lowest index is one of the list, as every precedence is below the first value. -/
private theorem lowestPrecedence_mem (indices : List (Nat × TokenType)) (lowest : Nat × Nat) :
    (lowestPrecedence indices lowest).1 = lowest.1 ∨ ∃ type, ((lowestPrecedence indices lowest).1, type) ∈ indices := by
  induction indices generalizing lowest with
  | nil => exact .inl rfl
  | cons head rest ih =>
    rw [lowestPrecedence]
    rcases ih (if precedence head.2 ≤ lowest.2 then (head.1, precedence head.2) else lowest) with same | ⟨type, mem⟩
    · split at same
      · rename_i lower
        rw [if_pos lower, same]
        exact .inr ⟨head.2, List.mem_cons_self⟩
      · rename_i higher
        rw [if_neg higher, same]
        exact .inl rfl
    · exact .inr ⟨type, List.mem_cons_of_mem _ mem⟩

private theorem precedence_lt (type : TokenType) : precedence type < 2 ^ 32 - 1 := by
  cases type <;> decide

private theorem getLowestPrecedenceIndex_mem (index : Nat × TokenType) (indices : List (Nat × TokenType)) :
    ∃ type, (getLowestPrecedenceIndex (index :: indices), type) ∈ index :: indices := by
  rw [getLowestPrecedenceIndex, lowestPrecedence, if_pos (precedence_lt index.2).le]
  rcases lowestPrecedence_mem indices (index.1, precedence index.2) with same | ⟨type, mem⟩
  · rw [same]
    exact ⟨index.2, List.mem_cons_self⟩
  · exact ⟨type, List.mem_cons_of_mem _ mem⟩

/-- What is found is a binary operator inside the window. -/
theorem findBinaryOperatorIndices_mem {length : Option Nat} {p : Parser} {index : Nat} {type : TokenType}
    (mem : (index, type) ∈ findBinaryOperatorIndices length p) : type ∈ BINARY_OPERATORS ∧
    index < (window length p.tokens).length ∧ ∃ token, p.tokens[index]? = some token ∧ token.type = type := by
  obtain ⟨operator, token, place, at_place, same, shifted⟩ := findOperators_mem mem
  rw [Nat.zero_add] at shifted
  rw [shifted]
  refine ⟨operator, (List.getElem?_eq_some_iff.mp at_place).1, token, ?_, same⟩
  cases length with
  | none => exact at_place
  | some length =>
    have inside : place < length := by
      by_contra outside
      rw [window, List.getElem?_take_eq_none (Nat.le_of_not_lt outside)] at at_place
      cases at_place
    rwa [window, List.getElem?_take_of_lt inside] at at_place

/-- The operator at which a binary expression is split is a token of the window. -/
theorem operatorIndex_spec {length : Option Nat} {p : Parser} {index : Nat × TokenType} {indices : List (Nat × TokenType)}
    (found : findBinaryOperatorIndices length p = index :: indices) :
    getLowestPrecedenceIndex (index :: indices) < (window length p.tokens).length ∧
    ∃ token, p.tokens[getLowestPrecedenceIndex (index :: indices)]? = some token ∧ token.type ∈ BINARY_OPERATORS := by
  obtain ⟨type, mem⟩ := getLowestPrecedenceIndex_mem index indices
  rw [← found] at mem
  obtain ⟨operator, inside, token, at_index, same⟩ := findBinaryOperatorIndices_mem mem
  rw [found] at inside at_index
  exact ⟨inside, token, at_index, same ▸ operator⟩

/-- Two suffixes of one list are the same where they have the same length. -/
theorem moveTo_tokens {p q : Parser} {count : Nat} {message : String} (suffix : q.tokens <:+ p.tokens) :
    (q.moveTo (p.tokens.drop count) message).tokens = p.tokens.drop count := by
  rw [Parser.moveTo]
  by_cases differ : q.tokens.length ≠ (p.tokens.drop count).length
  · rw [if_pos differ]
  · rw [if_neg differ]
    exact (List.suffix_or_suffix_of_suffix suffix (List.drop_suffix _ _)).elim
      (fun inside => inside.eq_of_length (not_not.mp differ)) fun inside => (inside.eq_of_length (not_not.mp differ).symm).symm

private theorem moveTo_later {p q : Parser} {count : Nat} {message : String} (follows : Later p q)
    (nonempty : "" ≠ message) :
    Later p (q.moveTo (p.tokens.drop count) message) := by
  obtain ⟨messages, errors, fine⟩ := follows.messages
  refine ⟨by rw [moveTo_tokens follows.suffix]; exact List.drop_suffix _ _, ?_⟩
  rw [Parser.moveTo]
  by_cases differ : q.tokens.length ≠ (p.tokens.drop count).length
  · rw [if_pos differ]
    exact (follows.trans (parseError_later q nonempty)).messages
  · rw [if_neg differ]
    exact ⟨messages, errors, fine⟩

/-- Back at the operator, the parser finds it. -/
private theorem parseBinaryOperator_spec {length : Option Nat} {p q : Parser} {index : Nat × TokenType}
    {indices : List (Nat × TokenType)} (found : findBinaryOperatorIndices length p = index :: indices) (message : String)
    (suffix : q.tokens <:+ p.tokens) :
    ∃ node r, parseBinaryOperator (q.moveTo (p.tokens.drop (getLowestPrecedenceIndex (index :: indices))) message) =
      (some node, r) ∧ r.tokens = p.tokens.drop (getLowestPrecedenceIndex (index :: indices) + 1) := by
  obtain ⟨-, token, at_index, operator⟩ := operatorIndex_spec found
  have tokens := @moveTo_tokens p q (getLowestPrecedenceIndex (index :: indices)) message suffix
  obtain ⟨inside, same⟩ := List.getElem?_eq_some_iff.mp at_index
  exact ⟨_, _, parseTable_of_head (tokens.trans (List.drop_eq_getElem_cons inside)) (by rw [same]; exact operator), rfl⟩

/-- The left side has a shorter window, and the right side fewer tokens. -/
theorem parseBinaryExpression_agrees {p : Parser} {parse parse' : Option Nat → Parser → Parsed} (length : Option Nat)
    (left : ∀ count, count < (window length p.tokens).length → Agrees p (parse (some count) p) (parse' (some count) p))
    (right : ∀ length, AgreeBelow p.tokens.length (parse length) (parse' length)) :
    Agrees p (parseBinaryExpression parse length p) (parseBinaryExpression parse' length p) := by
  rw [parseBinaryExpression, parseBinaryExpression]
  cases found : findBinaryOperatorIndices length p with
  | nil => exact Agrees.nothing p
  | cons index indices =>
    obtain ⟨inside, -⟩ := operatorIndex_spec found
    have first := (left _ inside).require (show "" ≠ "Expected expression before operator" by decide)
    simp only [← first.same]
    have back : Later p _ := @moveTo_later p _ (getLowestPrecedenceIndex (index :: indices))
      "Expected binary operator in expression" first.follows (by decide)
    obtain ⟨node, r, operator, rest⟩ := parseBinaryOperator_spec found
      "Expected binary operator in expression" first.follows.suffix
    have agrees := parseTable_agrees BINARY_OPERATORS .binaryOperator (Parser.moveTo
      (p.tokens.drop (getLowestPrecedenceIndex (index :: indices))) "Expected binary operator in expression"
      ((parse (some (getLowestPrecedenceIndex (index :: indices))) p).require "Expected expression before operator").2)
    rw [← parseBinaryOperator, operator] at agrees
    have ahead := back.trans_ahead ⟨agrees.follows, agrees.advances rfl⟩
    have second := (right (length.map (· - (getLowestPrecedenceIndex (index :: indices) + 1))) r ahead.shorter).require
      (show "" ≠ "Expected expression after operator" by decide)
    simp only [operator, ← second.same]
    exact Agrees.found (ahead.trans second.follows)

def unaryDepth (count : Nat) : Nat := count * (count + 3) + 1

def expressionDepth (count width : Nat) : Nat := count * (count + 3) + width + 2

theorem expressionDepth_lt {count count' width : Nat} (shorter : count' < count) (inside : width ≤ count') :
    expressionDepth count' width < unaryDepth count := by
  have step : (count' + 1) * (count' + 1 + 3) ≤ count * (count + 3) :=
    Nat.mul_le_mul shorter (Nat.add_le_add_right shorter 3)
  rw [expressionDepth, unaryDepth]
  linarith

theorem window_length_le (length : Option Nat) (tokens : List Token) : (window length tokens).length ≤ tokens.length := by
  cases length with
  | none => exact le_rfl
  | some length => exact List.length_take_le' _ _

/-- By induction on the bound: a call with as many tokens has a smaller window, and the others have fewer tokens. -/
theorem parseExpressions_agree (n n' : Nat) (p : Parser) :
    (unaryDepth p.tokens.length ≤ n → unaryDepth p.tokens.length ≤ n' →
      Agrees p (parseUnaryExpression n p) (parseUnaryExpression n' p)) ∧
    ∀ length, expressionDepth p.tokens.length (window length p.tokens).length ≤ n →
      expressionDepth p.tokens.length (window length p.tokens).length ≤ n' →
      Agrees p (parseExpressionWithLength n length p) (parseExpressionWithLength n' length p) := by
  induction n generalizing n' p with
  | zero => exact ⟨fun enough => absurd enough (Nat.not_succ_le_zero _), fun length enough => absurd enough (Nat.not_succ_le_zero _)⟩
  | succ n ih =>
    cases n' with
    | zero =>
      exact ⟨fun _ enough => absurd enough (Nat.not_succ_le_zero _),
        fun length _ enough => absurd enough (Nat.not_succ_le_zero _)⟩
    | succ n' =>
      have below (length : Option Nat) (enough : unaryDepth p.tokens.length ≤ n + 1)
          (enough' : unaryDepth p.tokens.length ≤ n' + 1) : AgreeBelow p.tokens.length
          (parseExpressionWithLength n length) (parseExpressionWithLength n' length) := by
        intro q shorter
        have lower := expressionDepth_lt shorter (window_length_le length q.tokens)
        exact (ih n' q).2 length (Nat.lt_succ_iff.mp (lower.trans_le enough)) (Nat.lt_succ_iff.mp (lower.trans_le enough'))
      constructor
      · intro enough enough'
        have expression := below none enough enough'
        have unary : AgreeBelow p.tokens.length (parseUnaryExpression n) (parseUnaryExpression n') := by
          intro q shorter
          have lower : unaryDepth q.tokens.length < unaryDepth p.tokens.length :=
            Nat.succ_lt_succ (Nat.mul_lt_mul_of_lt_of_le shorter (Nat.add_le_add_right shorter.le 3) (by omega))
          exact (ih n' q).1 (Nat.lt_succ_iff.mp (lower.trans_le enough)) (Nat.lt_succ_iff.mp (lower.trans_le enough'))
        have loops {n : Nat} (enough : unaryDepth p.tokens.length ≤ n + 1) : p.tokens.length ≤ n := by
          rw [unaryDepth] at enough
          nlinarith
        rw [parseUnaryExpression, parseUnaryExpression]
        refine Agrees.orElse (Agrees.wrap ?_ _) fun q follows =>
          parseParenthesisExpression_agrees (expression.mono follows.length_le)
        refine (parseLenExpression_agrees p).orElse fun q follows => ?_
        refine (parseNotExpression_agrees (unary.mono follows.length_le)).orElse fun q' follows' => ?_
        have follows := follows.trans follows'
        refine (parseNegateExpression_agrees (unary.mono follows.length_le)).orElse fun q'' follows'' => ?_
        have follows := follows.trans follows''
        refine (parseLiteral_agrees q'').orElse fun r behind => ?_
        have follows := follows.trans behind
        refine (parseMethodCall_agrees (follows.length_le.trans (loops enough)) (follows.length_le.trans (loops enough'))
          (expression.mono follows.length_le)).orElse fun r' behind' => ?_
        exact parseLocation_agrees (expression.mono (follows.trans behind').length_le)
      · intro length enough enough'
        have unary {n : Nat} (enough : expressionDepth p.tokens.length (window length p.tokens).length ≤ n + 1) :
            unaryDepth p.tokens.length ≤ n := by
          rw [expressionDepth] at enough
          rw [unaryDepth]
          omega
        rw [parseExpressionWithLength, parseExpressionWithLength]
        refine Agrees.orElse (Agrees.wrap (parseBinaryExpression_agrees length (fun count inside => ?_) fun length' =>
          below length' ((unary enough).trans (Nat.le_succ _)) ((unary enough').trans (Nat.le_succ _))) _) fun q follows => ?_
        · have smaller {n : Nat} (enough : expressionDepth p.tokens.length (window length p.tokens).length ≤ n + 1) :
              expressionDepth p.tokens.length (window (some count) p.tokens).length ≤ n := by
            have taken : (window (some count) p.tokens).length ≤ count := List.length_take_le _ _
            rw [expressionDepth] at enough ⊢
            omega
          exact (ih n' p).2 (some count) (smaller enough) (smaller enough')
        · have le : unaryDepth q.tokens.length ≤ unaryDepth p.tokens.length :=
            Nat.succ_le_succ (Nat.mul_le_mul follows.length_le (Nat.add_le_add_right follows.length_le 3))
          exact (ih n' q).1 (le.trans (unary enough)) (le.trans (unary enough'))

end Roast
