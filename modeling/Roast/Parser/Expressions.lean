import Roast.Parser.Sound

/-! The expression parser against the grammar: what it accepts is derivable, and what is derivable it accepts. -/
namespace Roast
open TokenType AstNode

theorem parseTable_cases (table : List TokenType) (type : AstNodeType) (p : Parser) :
    parseTable table type p = (none, p) ∨ ∃ token rest, p.tokens = token :: rest ∧ token.type ∈ table ∧
      parseTable table type p = (some (leaf type token), ⟨rest, p.errors⟩) := by
  rw [parseTable]
  cases next : p.nextTokenInTable table with
  | none => exact Or.inl rfl
  | some found =>
    obtain ⟨token, p'⟩ := found
    obtain ⟨mem, split, errors⟩ := Parser.nextTokenInTable_eq_some next
    exact Or.inr ⟨token, p'.tokens, split, mem, by simp [← errors]⟩

theorem parseIdentifier_sound : SoundParse parseIdentifier fun tokens node =>
    ∃ name : Token, name.type = identifier ∧ tokens = [name] ∧ node = leaf .identifier name := by
  intro p
  rw [parseIdentifier]
  cases p.nextTokenInTable KEYWORDS with
  | some found => intro fine; simp at fine
  | none => exact (parseTable_sound [identifier] .identifier p).mono fun tokens node => by simp

/-- The tokens and the node of a value of the table. -/
private theorem parseLiteralValue_sound : SoundParse (fun p => (parseBoolLiteral p).orElse fun p =>
    (parseIntLiteral p).orElse parseCharLiteral) fun tokens node => ∃ value : Token,
      value.type ∈ BOOL_LITERALS ++ INT_LITERALS ++ [charLiteral] ∧ tokens = [value] ∧
      node = leaf (literalNodeType value.type) value := by
  refine SoundParse.orElse ((parseTable_sound _ _).mono ?_)
    (SoundParse.orElse ((parseTable_sound _ _).mono ?_) ((parseTable_sound _ _).mono ?_))
  all_goals
    rintro tokens node ⟨value, mem, rfl, rfl⟩
    refine ⟨value, by simp [mem], rfl, ?_⟩
    simp only [BOOL_LITERALS, INT_LITERALS, List.mem_cons, List.not_mem_nil, or_false] at mem
  · rcases mem with type | type <;> rw [type] <;> rfl
  · rcases mem with type | type <;> rw [type] <;> rfl
  · rw [mem]
    rfl

/-- A literal that is parsed is derived. -/
theorem parseLiteral_sound : SoundParse parseLiteral fun tokens node =>
    ∃ literal, DerivesLiteral tokens literal ∧ node = literal.toNode := by
  intro p fine
  have value := parseLiteralValue_sound (parseLiteralNegation p).2
  simp only [parseLiteral] at fine ⊢
  cases found : (parseBoolLiteral (parseLiteralNegation p).2).orElse fun p =>
      (parseIntLiteral p).orElse parseCharLiteral with
  | mk child p' =>
    simp only [found] at fine value ⊢
    cases child with
    | some child =>
      obtain ⟨start, tokens, split, token, kind, rfl, rfl⟩ := value fine
      rcases parseTable_cases [sub] .literalNegation p with none | ⟨minus, rest, consumed, sign, some⟩
      · rw [parseLiteralNegation, none] at start split ⊢
        exact ⟨start, [token], split, ⟨Option.none, token⟩, .plain kind, rfl⟩
      · rw [parseLiteralNegation, some] at start split ⊢
        simp only at split
        refine ⟨start, [minus, token], by rw [consumed, split]; rfl, ⟨Option.some minus, token⟩, .negated ?_ kind, rfl⟩
        simpa using sign
    | none =>
      rcases parseTable_cases [stringLiteral] .stringLiteral p' with none | ⟨_, _, _, _, some⟩
      · simp only [parseStringLiteral, none] at fine ⊢
        rcases parseTable_cases [sub] .literalNegation p with none | ⟨minus, rest, consumed, sign, some⟩
        · simp only [parseLiteralNegation, none] at fine value ⊢
          exact value fine
        · simp [parseLiteralNegation, some] at fine
      · simp [parseStringLiteral, some] at fine

section
variable {expression unary : Parser → Parsed}

def ExpressionNode (tokens : List Token) (node : AstNode) : Prop :=
  ∃ expression, DerivesExpression tokens expression ∧ node = expression.toNode

def UnaryNode (tokens : List Token) (node : AstNode) : Prop :=
  ∃ expression, DerivesUnary tokens expression ∧ node = expression.toNode

def UnaryChild (tokens : List Token) (child : AstNode) : Prop := UnaryNode tokens (inner .expression [child])

private theorem parseLenExpression_sound : SoundParse parseLenExpression UnaryChild := by
  intro p
  rw [parseLenExpression]
  cases next : p.nextToken keywordLen with
  | none => exact Parses.nothing
  | some found =>
    intro fine
    obtain ⟨hkeyword, first, errors⟩ := Parser.nextToken_eq_some next
    simp only at fine ⊢
    obtain ⟨start, closing, hclosing, last⟩ := Parser.expectToken_sound fine
    obtain ⟨node, required, found', fine'⟩ := Parsed.require_sound start
    obtain ⟨start, tokens, third, name, hname, rfl, rfl⟩ := (parseIdentifier_sound _).eq_some fine' (congrArg Prod.fst found')
    obtain ⟨start, opening, hopening, second⟩ := Parser.expectToken_sound start
    refine ⟨errors ▸ start, [found.1, opening, name, closing], ?_, .len name, .len hkeyword hopening hname hclosing, ?_⟩
    · rw [required] at last ⊢
      simp only at last
      rw [first, second, third, last]
      rfl
    · rw [required]
      rfl

private theorem parseNotExpression_sound (sound : SoundParse unary UnaryNode) :
    SoundParse (parseNotExpression unary) UnaryChild := by
  intro p
  rw [parseNotExpression]
  cases next : p.nextToken .not with
  | none => exact Parses.nothing
  | some found =>
    intro fine
    obtain ⟨hoperator, first, errors⟩ := Parser.nextToken_eq_some next
    obtain ⟨node, required, found', fine'⟩ := Parsed.require_sound fine
    obtain ⟨start, tokens, second, operand, derives, rfl⟩ := (sound _).eq_some fine' (congrArg Prod.fst found')
    refine ⟨errors ▸ start, found.1 :: tokens, ?_, .not operand, .not hoperator derives, ?_⟩
    · simp only [required]
      rw [first, second, List.cons_append]
    · simp only [required]
      rfl

private theorem parseNegateExpression_sound (sound : SoundParse unary UnaryNode) :
    SoundParse (parseNegateExpression unary) UnaryChild := by
  intro p
  rw [parseNegateExpression]
  split
  · exact Parses.nothing
  · rename_i notLiteral
    cases next : p.nextToken sub with
    | none => exact Parses.nothing
    | some found =>
      intro fine
      obtain ⟨hoperator, first, errors⟩ := Parser.nextToken_eq_some next
      obtain ⟨node, required, found', fine'⟩ := Parsed.require_sound fine
      obtain ⟨start, tokens, second, operand, derives, rfl⟩ := (sound _).eq_some fine' (congrArg Prod.fst found')
      refine ⟨errors ▸ start, found.1 :: tokens, ?_, .negate operand, .negate hoperator derives ?_, ?_⟩
      · simp only [required]
        rw [first, second, List.cons_append]
      · intro token mem
        obtain ⟨rest, rfl⟩ : ∃ rest, tokens = token :: rest := by
          cases tokens with
          | nil => cases mem
          | cons head rest => cases mem; exact ⟨rest, rfl⟩
        have second : p.tokens = found.1 :: token :: (rest ++ (unary found.2).2.tokens) := by rw [first, second]; rfl
        simpa [Parser.peekToken, second, hoperator, INT_LITERALS] using notLiteral
      · simp only [required]
        rfl

/-- Behind `parse_negate_expression` a `-` is the sign of an integer literal. -/
private theorem parseLiteral_after_negate {p : Parser} (noNegation : parseNegateExpression unary p = (none, p)) :
    Parses (parseLiteral p) p UnaryChild := by
  intro fine
  obtain ⟨start, found⟩ := parseLiteral_sound p fine
  refine ⟨start, ?_⟩
  split at found
  · exact found
  · obtain ⟨tokens, split, literal, derives, rfl⟩ := found
    refine ⟨tokens, split, .literal literal, ?_, rfl⟩
    cases derives with
    | plain kind => exact .literal kind
    | @negated minus value sign kind =>
      have split : p.tokens = minus :: value :: (parseLiteral p).2.tokens := split
      refine .negatedLiteral sign ?_
      by_contra notInteger
      simp only [INT_LITERALS, List.mem_cons, List.not_mem_nil, or_false, not_or] at notInteger
      simp [parseNegateExpression, Parser.peekToken, split, sign, notInteger, Parser.nextToken_of split sign] at noNegation

def LocationNode (tokens : List Token) (node : AstNode) : Prop :=
  ∃ location, DerivesLocation tokens location ∧ node = location.toNode

private theorem LocationNode.unaryChild {tokens : List Token} {node : AstNode} (location : LocationNode tokens node) :
    UnaryChild tokens node := by
  obtain ⟨location, derives, rfl⟩ := location
  cases derives with
  | scalar hname => exact ⟨_, .scalar hname, rfl⟩
  | element hname hopening operand hclosing => exact ⟨_, .element hname hopening operand hclosing, rfl⟩

/-- A location that is parsed is derived. -/
theorem parseLocation_sound (sound : SoundParse expression ExpressionNode) :
    SoundParse (parseLocation expression) LocationNode := by
  intro p
  have name := parseIdentifier_sound p
  rw [parseLocation]
  cases found : parseIdentifier p with
  | mk node p' =>
    rw [found] at name
    cases node with
    | none => exact name
    | some node =>
      simp only
      cases next : p'.nextToken openSquareBracket with
      | none =>
        intro fine
        obtain ⟨start, tokens, split, token, hname, rfl, rfl⟩ := name fine
        exact ⟨start, [token], split, .scalar token, .scalar hname, rfl⟩
      | some opening =>
        intro fine
        obtain ⟨hopening, second, errors⟩ := Parser.nextToken_eq_some next
        obtain ⟨start, closing, hclosing, last⟩ := Parser.expectToken_sound fine
        obtain ⟨node, required, found', fine'⟩ := Parsed.require_sound start
        obtain ⟨start, tokens, third, index, derives, rfl⟩ := (sound _).eq_some fine' (congrArg Prod.fst found')
        obtain ⟨start, tokens', split, token, hname, rfl, rfl⟩ := name (errors ▸ start)
        refine ⟨start, token :: opening.1 :: (tokens ++ [closing]), ?_, .element token index,
          .element hname hopening derives hclosing, ?_⟩
        · simp only [required] at last ⊢
          simp only at split
          rw [split, second, third, last]
          simp
        · simp only [required]
          rfl

private theorem parseParenthesisExpression_sound (sound : SoundParse expression ExpressionNode) :
    SoundParse (parseParenthesisExpression expression) UnaryNode := by
  intro p
  rw [parseParenthesisExpression]
  cases next : p.nextToken openParenthesis with
  | none => exact Parses.nothing
  | some found =>
    intro fine
    obtain ⟨hopening, first, errors⟩ := Parser.nextToken_eq_some next
    obtain ⟨start, closing, hclosing, last⟩ := Parser.expectToken_sound fine
    obtain ⟨node, required, found', fine'⟩ := Parsed.require_sound start
    obtain ⟨start, tokens, second, operand, derives, rfl⟩ := (sound _).eq_some fine' (congrArg Prod.fst found')
    simp only [required] at last ⊢
    refine ⟨errors ▸ start, found.1 :: (tokens ++ [closing]), ?_, operand, .parenthesis hopening derives hclosing, rfl⟩
    rw [first, second, last]
    simp

def ArgumentNode (tokens : List Token) (node : AstNode) : Prop :=
  (∃ string : Token, string.type = stringLiteral ∧ tokens = [string] ∧
    node = inner .methodCallArgument [leaf .stringLiteral string]) ∨
  ∃ expression, DerivesExpression tokens expression ∧ node = inner .methodCallArgument [expression.toNode]

private theorem parseMethodCallArgument_sound (sound : SoundParse expression ExpressionNode) :
    SoundParse (parseMethodCallArgument expression) ArgumentNode := by
  intro p
  refine Parses.wrap ?_ fun _ _ => id
  refine SoundParse.orElse ((parseTable_sound _ _).mono ?_) (sound.mono ?_) p
  · rintro tokens node ⟨string, mem, rfl, rfl⟩
    exact Or.inl ⟨string, by simpa using mem, rfl, rfl⟩
  · rintro tokens node ⟨expression, derives, rfl⟩
    exact Or.inr ⟨expression, derives, rfl⟩

theorem Separated.arguments {tokens : List Token} {nodes : List AstNode}
    (separated : Separated ArgumentNode closeParenthesis tokens nodes) :
    ∃ arguments, DerivesArguments tokens arguments ∧ nodes = arguments.toNodes := by
  induction separated with
  | last item hclosing =>
    rcases item with ⟨string, hstring, rfl, rfl⟩ | ⟨expression, derives, rfl⟩
    · exact ⟨_, .lastString hstring hclosing, rfl⟩
    · exact ⟨_, .lastExpression derives hclosing, rfl⟩
  | cons item hseparator _ ih =>
    obtain ⟨arguments, operands, rfl⟩ := ih
    rcases item with ⟨string, hstring, rfl, rfl⟩ | ⟨expression, derives, rfl⟩
    · exact ⟨_, .string hstring hseparator operands, rfl⟩
    · exact ⟨_, .expression derives hseparator operands, rfl⟩

def CallNode (tokens : List Token) (node : AstNode) : Prop := ∃ call, DerivesCall tokens call ∧ node = call.toNode

private theorem CallNode.unaryChild {tokens : List Token} {node : AstNode} (call : CallNode tokens node) :
    UnaryChild tokens node := by
  obtain ⟨call, derives, rfl⟩ := call
  cases derives with
  | empty hname hopening hclosing => exact ⟨_, .call hname hopening hclosing, rfl⟩
  | arguments hname hopening operands => exact ⟨_, .callWith hname hopening operands, rfl⟩

/-- A call that is parsed is derived. -/
theorem parseMethodCall_sound (sound : SoundParse expression ExpressionNode) (n : Nat) :
    SoundParse (parseMethodCall expression n) CallNode := by
  rintro ⟨tokens, errors⟩
  rw [parseMethodCall]
  split
  · rename_i peek
    obtain ⟨name, opening, rest, rfl, hname, hopening⟩ : ∃ name opening : Token, ∃ rest, tokens = name :: opening :: rest ∧
        name.type = identifier ∧ opening.type = openParenthesis := by
      rcases tokens with _ | ⟨name, _ | ⟨opening, rest⟩⟩
      · simp [Parser.peekToken] at peek
      · simp [Parser.peekToken] at peek
      · exact ⟨name, opening, rest, rfl, by simpa [Parser.peekToken] using peek⟩
    have named : parseIdentifier ⟨name :: opening :: rest, errors⟩ =
        (some (leaf .identifier name), ⟨opening :: rest, errors⟩) := by
      simp [parseIdentifier, parseTable, Parser.nextTokenInTable_cons, hname, KEYWORDS]
    simp only [named, Parser.nextToken_cons, hopening, if_true]
    cases next : (⟨rest, errors⟩ : Parser).nextToken closeParenthesis with
    | some found =>
      intro fine
      obtain ⟨hclosing, last, same⟩ := Parser.nextToken_eq_some next
      exact ⟨same ▸ fine, [name, opening, found.1], by simpa using last, ⟨name, .nil⟩,
        .empty hname hopening hclosing, rfl⟩
    | none =>
      intro fine
      obtain ⟨start, tokens, nodes, separated, split, same⟩ := parseSeparated_sound (parseMethodCallArgument_sound sound)
        _ _ _ _ _ _ fine
      obtain ⟨arguments, operands, rfl⟩ := separated.arguments
      refine ⟨start, name :: opening :: tokens, ?_, ⟨name, arguments⟩, .arguments hname hopening operands, ?_⟩
      · simpa using split
      · simp only [same]
        rfl
  · exact Parses.nothing

end

/-- The tokens of an expression, whose operators have at least the precedences of those that the scan finds. -/
def LevelNode (length : Option Nat) (start tokens : List Token) (node : AstNode) : Prop :=
  ∃ expression : AstExpression, node = expression.toNode ∧ ∀ level,
    (∀ index ∈ findOperators 0 0 none (window length start), level ≤ precedence index.2) →
      DerivesBinary level tokens expression

private theorem window_drop (length : Option Nat) (index : Nat) (tokens : List Token) :
    (window length tokens).drop index = window (length.map (· - index)) (tokens.drop index) := by
  cases length with
  | none => rfl
  | some length => exact List.drop_take

private theorem window_getElem {length : Option Nat} {index : Nat} {tokens : List Token} {token : Token}
    (found : (window length tokens)[index]? = some token) :
    tokens[index]? = some token ∧ (window length tokens).take index = tokens.take index := by
  cases length with
  | none => exact ⟨found, rfl⟩
  | some length =>
    simp only [window, List.getElem?_take] at found ⊢
    split at found
    · exact ⟨found, by rw [List.take_take]; congr 1; omega⟩
    · cases found

/-- An operator of lowest precedence with the bounds it sets for the scans on both sides of it. -/
private theorem operator_spec {length : Option Nat} {tokens : List Token} {indices : List (Nat × TokenType)}
    (found : findOperators 0 0 none (window length tokens) = indices) (nonempty : indices ≠ []) :
    ∃ operator : Token, tokens.drop (getLowestPrecedenceIndex indices) =
        operator :: tokens.drop (getLowestPrecedenceIndex indices + 1) ∧
      operator.type ∈ BINARY_OPERATORS ∧
      (∃ index ∈ indices, index.2 = operator.type) ∧
      (∀ index ∈ findOperators 0 0 none (window (some (getLowestPrecedenceIndex indices)) tokens),
        precedence operator.type ≤ precedence index.2) ∧
      ∀ index ∈ findOperators 0 0 none (window (length.map (· - (getLowestPrecedenceIndex indices + 1)))
        (tokens.drop (getLowestPrecedenceIndex indices + 1))), precedence operator.type + 1 ≤ precedence index.2 := by
  obtain ⟨before, index, after, split, same, above, above'⟩ := getLowestPrecedenceIndex_spec nonempty
  rw [same]
  obtain ⟨i, type⟩ := index
  simp only at above above' ⊢
  rw [split, ← Nat.zero_add i] at found
  obtain ⟨binary, operator, get, rfl, later⟩ := findOperators_split found
  obtain ⟨get, taken⟩ := window_getElem get
  obtain ⟨lt, rfl⟩ := List.getElem?_eq_some_iff.mp get
  refine ⟨_, List.drop_eq_getElem_cons lt, binary, ⟨(i, _), by rw [split]; simp, rfl⟩, ?_, ?_⟩
  · intro index mem
    have mem : index ∈ findOperators 0 0 none ((window length tokens).take i) := by rwa [taken]
    have mem := findOperators_append 0 0 none _ ((window length tokens).drop i) mem
    rw [List.take_append_drop, found] at mem
    rcases List.mem_append.mp mem with mem | mem
    · exact above index mem
    · rcases List.mem_cons.mp mem with rfl | mem
      · exact le_rfl
      · exact (above' index mem).le
  · intro index mem
    rw [window_drop, findOperators_start binary, Nat.zero_add,
      show i + 1 = 0 + (i + 1) by rw [Nat.zero_add], findOperators_shift, Nat.zero_add] at later
    exact above' (shiftIndex (i + 1) index) (by rw [later]; exact List.mem_map_of_mem mem)

private theorem Parser.moveTo_sound {expected : List Token} {message : String} {p : Parser}
    (fine : (p.moveTo expected message).errors = []) : p.errors = [] ∧ p.tokens.length = expected.length := by
  rw [moveTo] at fine
  split at fine
  · simp [parseError] at fine
  · rename_i same
    exact ⟨fine, not_not.mp same⟩

/-- A binary expression that is parsed is derived at its level. -/
private theorem parseBinaryExpression_sound {parse : Option Nat → Parser → Parsed}
    (sound : ∀ length p, Parses (parse length p) p (LevelNode length p.tokens)) (length : Option Nat) (p : Parser) :
    Parses (parseBinaryExpression parse length p) p fun tokens child =>
      LevelNode length p.tokens tokens (inner .expression [child]) := by
  rw [parseBinaryExpression]
  cases found : findBinaryOperatorIndices length p with
  | nil => exact Parses.nothing
  | cons index indices =>
    intro fine
    obtain ⟨operator, behind, binary, lowest, least, greater⟩ := operator_spec found (by simp)
    simp only at fine ⊢
    generalize getLowestPrecedenceIndex (index :: indices) = i at fine behind least greater ⊢
    -- the errors are traced backwards: the right operand, the operator, the position, the left operand
    obtain ⟨_, _, _, fineRight⟩ := Parsed.require_sound fine
    have moved := (parseTable_sound _ _).keeps _ ((sound _ _ fineRight).1)
    obtain ⟨fineLeft, lengths⟩ := Parser.moveTo_sound moved
    obtain ⟨leftNode, requiredLeft, foundLeft, fineLeft⟩ := Parsed.require_sound fineLeft
    obtain ⟨start, first, split, left, rfl, hleft⟩ := (sound _ _).eq_some fineLeft (congrArg Prod.fst foundLeft)
    rw [requiredLeft] at lengths
    have reached : (parse (some i) p).2 = ⟨p.tokens.drop i, []⟩ := by
      have suffixes : first ++ (parse (some i) p).2.tokens = p.tokens.take i ++ p.tokens.drop i := by
        rw [List.take_append_drop, ← split]
      rw [← List.append_inj_right' suffixes lengths, ← fineLeft]
    have operated : parseBinaryOperator ⟨p.tokens.drop i, []⟩ =
        (some (leaf .binaryOperator operator), ⟨p.tokens.drop (i + 1), []⟩) := by
      rw [behind, parseBinaryOperator, parseTable, Parser.nextTokenInTable_cons, if_pos binary]
    have stays : (⟨p.tokens.drop i, []⟩ : Parser).moveTo (p.tokens.drop i) "Expected binary operator in expression" =
        ⟨p.tokens.drop i, []⟩ := by
      simp [Parser.moveTo]
    simp only [requiredLeft, reached, stays, operated] at fine split ⊢
    obtain ⟨rightNode, required, foundRight, fineRight⟩ := Parsed.require_sound fine
    obtain ⟨-, second, split', right, rfl, hright⟩ := (sound _ _).eq_some fineRight (congrArg Prod.fst foundRight)
    simp only [required] at split' ⊢
    refine ⟨start, first ++ operator :: second, ?_, .binary left operator right, rfl, ?_⟩
    · rw [List.append_assoc, List.cons_append, ← split', ← behind, ← split]
    · intro level above
      obtain ⟨index, mem, same⟩ := lowest
      refine .binary binary ?_ (hleft _ least) (hright _ greater)
      exact same ▸ above index (by rw [← found] at mem; exact mem)

/-- An expression that is parsed is derived, by induction on the fuel. -/
private theorem parse_sound (n : Nat) : SoundParse (parseUnaryExpression n) UnaryNode ∧
    ∀ length p, Parses (parseExpressionWithLength n length p) p (LevelNode length p.tokens) := by
  induction n with
  | zero => exact ⟨fun p fine => by simp [parseUnaryExpression] at fine, fun length p fine => by
      simp [parseExpressionWithLength] at fine⟩
  | succ n ih =>
    obtain ⟨unary, level⟩ := ih
    have expression : SoundParse (parseExpressionWithLength n none) ExpressionNode := fun p =>
      (level none p).mono fun tokens node ⟨expression, same, derives⟩ => ⟨expression, derives 0 (by simp), same⟩
    have call : SoundParse (parseMethodCall (parseExpressionWithLength n none) n) UnaryChild :=
      (parseMethodCall_sound expression n).mono fun _ _ => CallNode.unaryChild
    have tail : SoundParse (fun p => (parseMethodCall (parseExpressionWithLength n none) n p).orElse
        (parseLocation (parseExpressionWithLength n none))) UnaryChild :=
      call.orElse ((parseLocation_sound expression).mono fun _ _ => LocationNode.unaryChild)
    constructor
    · intro p
      rw [parseUnaryExpression]
      refine Parses.orElse (Parses.wrap ?_ fun _ _ => id)
        (parseParenthesisExpression_sound expression).keeps fun _ => parseParenthesisExpression_sound expression p
      refine SoundParse.orElse parseLenExpression_sound (SoundParse.orElse (parseNotExpression_sound unary) ?_) p
      intro p
      have anything : SoundParse (fun p => (parseLiteral p).orElse fun p =>
          (parseMethodCall (parseExpressionWithLength n none) n p).orElse
            (parseLocation (parseExpressionWithLength n none))) fun _ _ => True :=
        (parseLiteral_sound.mono fun _ _ _ => trivial).orElse (tail.mono fun _ _ _ => trivial)
      exact Parses.orElse (parseNegateExpression_sound unary p) anything.keeps fun noNegation =>
        Parses.orElse (parseLiteral_after_negate noNegation) tail.keeps fun _ => tail p
    · intro length p
      rw [parseExpressionWithLength]
      refine Parses.orElse (Parses.wrap (parseBinaryExpression_sound level length p) fun _ _ => id) unary.keeps fun _ =>
        (unary p).mono ?_
      rintro tokens node ⟨expression, derives, rfl⟩
      exact ⟨expression, rfl, fun level _ => .unary derives⟩

theorem parseExpression_sound (n : Nat) : SoundParse (parseExpression n) ExpressionNode := fun p =>
  ((parse_sound n).2 none p).mono fun _ _ ⟨expression, same, derives⟩ => ⟨expression, derives 0 (by simp), same⟩

section
variable {rest : List Token} {errors : List String}

@[simp] theorem parseIdentifier_cons {name : Token} (hname : name.type = identifier) :
    parseIdentifier ⟨name :: rest, errors⟩ = (some (leaf .identifier name), ⟨rest, errors⟩) := by
  simp [parseIdentifier, parseTable, Parser.nextTokenInTable_cons, hname, KEYWORDS]

theorem parseTable_cons {table : List TokenType} {type : AstNodeType} {token : Token} (mem : token.type ∈ table) :
    parseTable table type ⟨token :: rest, errors⟩ = (some (leaf type token), ⟨rest, errors⟩) := by
  simp [parseTable, Parser.nextTokenInTable_cons, mem]

theorem parseTable_none {table : List TokenType} {type : AstNodeType} {tokens : List Token}
    (head : HeadNotIn table tokens) : parseTable table type ⟨tokens, errors⟩ = (none, ⟨tokens, errors⟩) := by
  cases tokens with
  | nil => simp [parseTable, Parser.nextTokenInTable_nil]
  | cons token rest => simp [parseTable, Parser.nextTokenInTable_cons, head token rfl]

@[simp] theorem Parser.expectToken_cons {type : TokenType} {message : String} {token : Token} (same : token.type = type) :
    (⟨token :: rest, errors⟩ : Parser).expectToken type message = ⟨rest, errors⟩ := by
  simp [expectToken, nextToken_cons, same]

private theorem parseLiteralValue_cons {value : Token}
    (kind : value.type ∈ BOOL_LITERALS ++ INT_LITERALS ++ [charLiteral]) :
    ((parseBoolLiteral ⟨value :: rest, errors⟩).orElse fun p => (parseIntLiteral p).orElse parseCharLiteral) =
      (some (leaf (literalNodeType value.type) value), ⟨rest, errors⟩) := by
  simp only [BOOL_LITERALS, INT_LITERALS, List.cons_append, List.nil_append, List.mem_cons, List.not_mem_nil,
    or_false] at kind
  rcases kind with type | type | type | type | type <;>
    simp [parseBoolLiteral, parseIntLiteral, parseCharLiteral, parseTable, Parser.nextTokenInTable_cons, type,
      BOOL_LITERALS, INT_LITERALS, Parsed.orElse, literalNodeType]

theorem DerivesLiteral.parse {tokens : List Token} {literal : AstLiteral} (derives : DerivesLiteral tokens literal) :
    parseLiteral ⟨tokens ++ rest, errors⟩ = (some literal.toNode, ⟨rest, errors⟩) := by
  cases derives with
  | @plain value kind =>
    have unsigned : HeadNotIn [sub] (value :: rest) := by
      rintro _ ⟨⟩ sign
      rw [List.mem_singleton.mp sign] at kind
      exact absurd kind (by decide)
    simp [parseLiteral, parseLiteralNegation, parseTable_none unsigned, parseLiteralValue_cons kind, AstLiteral.toNode]
  | negated sign kind =>
    simp [parseLiteral, parseLiteralNegation, parseTable_cons (List.mem_singleton.mpr sign), parseLiteralValue_cons kind,
      AstLiteral.toNode]

/-- Where no literal begins, `parse_literal` returns `NULL`. -/
theorem parseLiteral_none {tokens : List Token}
    (head : HeadNotIn (sub :: stringLiteral :: charLiteral :: (BOOL_LITERALS ++ INT_LITERALS)) tokens) :
    parseLiteral ⟨tokens, errors⟩ = (none, ⟨tokens, errors⟩) := by
  have among {table : List TokenType} (subset : table ⊆ sub :: stringLiteral :: charLiteral ::
      (BOOL_LITERALS ++ INT_LITERALS)) : HeadNotIn table tokens := fun token mem type => head token mem (subset type)
  simp [parseLiteral, parseLiteralNegation, parseBoolLiteral, parseIntLiteral, parseCharLiteral, parseStringLiteral,
    Parsed.orElse, parseTable_none (@among [sub] (by decide)),
    parseTable_none (@among BOOL_LITERALS (by decide)), parseTable_none (@among INT_LITERALS (by decide)),
    parseTable_none (@among [charLiteral] (by decide)),
    parseTable_none (@among [stringLiteral] (by decide))]

def FollowsOperand (tokens : List Token) : Prop :=
  ∀ token ∈ tokens.head?, isTerminator token.type = true ∨ token.type ∈ BINARY_OPERATORS

def Terminated (tokens : List Token) : Prop := ∀ token ∈ tokens.head?, isTerminator token.type = true

theorem FollowsOperand.head {tokens : List Token} (follows : FollowsOperand tokens) :
    HeadNotIn [openParenthesis, openSquareBracket] tokens := by
  intro token mem type
  rcases follows token mem with terminator | operator
  · simp only [List.mem_cons, List.not_mem_nil, or_false] at type
    rcases type with type | type <;> simp [type, isTerminator] at terminator
  · simp only [List.mem_cons, List.not_mem_nil, or_false] at type
    rcases type with type | type <;> simp [type, BINARY_OPERATORS] at operator

private theorem Terminated.followsOperand {tokens : List Token} (terminated : Terminated tokens) :
    FollowsOperand tokens :=
  fun token mem => Or.inl (terminated token mem)

theorem terminated_cons {token : Token} {tokens : List Token} (terminator : isTerminator token.type = true) :
    Terminated (token :: tokens) := by
  rintro _ ⟨⟩
  exact terminator

private theorem follows_cons {token : Token} {tokens : List Token} (operator : token.type ∈ BINARY_OPERATORS) :
    FollowsOperand (token :: tokens) := by
  rintro _ ⟨⟩
  exact Or.inr operator

def FIRST : List TokenType :=
  [keywordLen, .not, sub, identifier, openParenthesis] ++ (BOOL_LITERALS ++ INT_LITERALS ++ [charLiteral])

/-- A derived operand begins with a token that begins operands. -/
theorem DerivesUnary.head {tokens : List Token} {expression : AstExpression} (derives : DerivesUnary tokens expression) :
    ∃ token rest, tokens = token :: rest ∧ token.type ∈ FIRST := by
  cases derives with
  | len hkeyword => exact ⟨_, _, rfl, by simp [FIRST, hkeyword]⟩
  | not hoperator => exact ⟨_, _, rfl, by simp [FIRST, hoperator]⟩
  | negate hoperator => exact ⟨_, _, rfl, by simp [FIRST, hoperator]⟩
  | literal kind => exact ⟨_, _, rfl, List.mem_append_right _ kind⟩
  | negatedLiteral sign => exact ⟨_, _, rfl, by simp [FIRST, sign]⟩
  | call hname => exact ⟨_, _, rfl, by simp [FIRST, hname]⟩
  | callWith hname => exact ⟨_, _, rfl, by simp [FIRST, hname]⟩
  | scalar hname => exact ⟨_, _, rfl, by simp [FIRST, hname]⟩
  | element hname => exact ⟨_, _, rfl, by simp [FIRST, hname]⟩
  | parenthesis hopening => exact ⟨_, _, rfl, by simp [FIRST, hopening]⟩

theorem DerivesBinary.head {level : Nat} {tokens : List Token} {expression : AstExpression} :
    DerivesBinary level tokens expression → ∃ token rest, tokens = token :: rest ∧ token.type ∈ FIRST
  | .unary operand => operand.head
  | .binary _ _ hleft _ => by
    obtain ⟨token, rest, rfl, mem⟩ := hleft.head
    exact ⟨token, _, rfl, mem⟩

theorem DerivesArguments.head {tokens : List Token} {arguments : AstArguments}
    (derives : DerivesArguments tokens arguments) :
    ∃ token rest, tokens = token :: rest ∧ token.type ∈ stringLiteral :: FIRST := by
  cases derives with
  | lastString hstring => exact ⟨_, _, rfl, by simp [hstring]⟩
  | string hstring => exact ⟨_, _, rfl, by simp [hstring]⟩
  | lastExpression operand =>
    obtain ⟨token, rest, rfl, mem⟩ := operand.head
    exact ⟨token, _, rfl, List.mem_cons_of_mem _ mem⟩
  | expression operand =>
    obtain ⟨token, rest, rfl, mem⟩ := operand.head
    exact ⟨token, _, rfl, List.mem_cons_of_mem _ mem⟩

/-- What stands behind an expression parsed with a length: a terminator, or the end of the window. -/
def Behind (length : Option Nat) (tokens rest : List Token) : Prop :=
  length = none ∧ Terminated rest ∨ length = some tokens.length ∧ FollowsOperand rest

theorem Behind.follows {length : Option Nat} {tokens rest : List Token} (behind : Behind length tokens rest) :
    FollowsOperand rest := by
  rcases behind with ⟨_, terminated⟩ | ⟨_, follows⟩
  · exact terminated.followsOperand
  · exact follows

/-- The window ends behind the expression, so that the scan finds its operators only. -/
theorem FindsOperators.window {tokens : List Token} {indices : List (Nat × TokenType)}
    (finds : FindsOperators tokens indices) {length : Option Nat} (behind : Behind length tokens rest) :
    findOperators 0 0 none (Roast.window length (tokens ++ rest)) = indices := by
  obtain ⟨last, _, finds⟩ := finds
  have start : StartsOperand none := by simp [StartsOperand]
  have shift : indices.map (shiftIndex 0) = indices := by
    rw [show shiftIndex 0 = id by funext index; rfl, List.map_id]
  rcases behind with ⟨rfl, terminated⟩ | ⟨rfl, _⟩
  · rw [Roast.window, finds 0 0 none rest fun _ => start, if_pos rfl, shift]
    cases rest with
    | nil => simp [findOperators]
    | cons token rest => simp [findOperators_terminator (terminated token rfl)]
  · rw [Roast.window, List.take_left, ← List.append_nil tokens, finds 0 0 none [] fun _ => start, if_pos rfl, shift]
    simp [findOperators]

/-- An item with the separator behind it. -/
theorem parseSeparated_comma {parse : Parser → Parsed} {itemMessage closeMessage : String} {close : TokenType} {n : Nat}
    {children : List AstNode} {p : Parser} {node : AstNode} {separator : Token}
    (item : parse p = (some node, ⟨separator :: rest, errors⟩)) (hseparator : separator.type = comma) :
    parseSeparated parse itemMessage close closeMessage (n + 1) children p =
      parseSeparated parse itemMessage close closeMessage n (children ++ [node]) ⟨rest, errors⟩ := by
  simp [parseSeparated, item, Parsed.require, Parser.nextToken_cons, hseparator]

/-- The last item with the token that closes the list. -/
theorem parseSeparated_close {parse : Parser → Parsed} {itemMessage closeMessage : String} {close : TokenType} {n : Nat}
    {children : List AstNode} {p : Parser} {node : AstNode} {closing : Token}
    (item : parse p = (some node, ⟨closing :: rest, errors⟩)) (hclosing : closing.type = close) (other : close ≠ comma) :
    parseSeparated parse itemMessage close closeMessage (n + 1) children p = (children ++ [node], ⟨rest, errors⟩) := by
  simp [parseSeparated, item, Parsed.require, Parser.nextToken_cons, hclosing, other]

private theorem parseMethodCallArgument_string {expression : Parser → Parsed} {string : Token}
    (hstring : string.type = stringLiteral) : parseMethodCallArgument expression ⟨string :: rest, errors⟩ =
      (some (inner .methodCallArgument [leaf .stringLiteral string]), ⟨rest, errors⟩) := by
  simp [parseMethodCallArgument, parseStringLiteral, parseTable_cons (List.mem_singleton.mpr hstring), Parsed.orElse,
    Parsed.wrap]

private theorem parseMethodCallArgument_expression {expression : Parser → Parsed} {token : Token} {p : Parser}
    {node : AstNode}
    (mem : token.type ∈ FIRST) (parsed : expression ⟨token :: rest, errors⟩ = (some node, p)) :
    parseMethodCallArgument expression ⟨token :: rest, errors⟩ = (some (inner .methodCallArgument [node]), p) := by
  have noString : HeadNotIn [stringLiteral] (token :: rest) := by
    rintro _ ⟨⟩ type
    rw [List.mem_singleton.mp type] at mem
    exact absurd mem (by decide)
  simp [parseMethodCallArgument, parseStringLiteral, parseTable_none noString, Parsed.orElse, Parsed.wrap, parsed]

theorem parseLenExpression_none {token : Token} (other : token.type ≠ keywordLen) :
    parseLenExpression ⟨token :: rest, errors⟩ = (none, ⟨token :: rest, errors⟩) := by
  simp [parseLenExpression, Parser.nextToken_cons, other]

theorem parseNotExpression_none {unary : Parser → Parsed} {token : Token} (other : token.type ≠ .not) :
    parseNotExpression unary ⟨token :: rest, errors⟩ = (none, ⟨token :: rest, errors⟩) := by
  simp [parseNotExpression, Parser.nextToken_cons, other]

theorem parseNegateExpression_none {unary : Parser → Parsed} {token : Token} (other : token.type ≠ sub) :
    parseNegateExpression unary ⟨token :: rest, errors⟩ = (none, ⟨token :: rest, errors⟩) := by
  simp [parseNegateExpression, Parser.nextToken_cons, Parser.peekToken, other]

theorem parseMethodCall_none {expression : Parser → Parsed} {n : Nat} {p : Parser}
    (other : (p.peekToken 0 identifier && p.peekToken 1 openParenthesis) = false) :
    parseMethodCall expression n p = (none, p) := by
  simp [parseMethodCall, other]

theorem parseLocation_none {expression : Parser → Parsed} {p : Parser} (noName : parseIdentifier p = (none, p)) :
    parseLocation expression p = (none, p) := by
  simp [parseLocation, noName]

theorem nextToken_none {type : TokenType} {tokens : List Token} (head : HeadNotIn [type] tokens) :
    (⟨tokens, errors⟩ : Parser).nextToken type = none := by
  cases tokens with
  | nil => rfl
  | cons token rest => simpa [Parser.nextToken_cons] using head token rfl

private theorem parseUnaryExpression_name {name : Token} (hname : name.type = identifier) (n : Nat) :
    parseUnaryExpression (n + 1) ⟨name :: rest, errors⟩ =
      (((parseMethodCall (parseExpressionWithLength n none) n ⟨name :: rest, errors⟩).orElse
        (parseLocation (parseExpressionWithLength n none))).wrap fun child => inner .expression [child]).orElse
        (parseParenthesisExpression (parseExpressionWithLength n none)) := by
  have noLiteral : HeadNotIn (sub :: stringLiteral :: charLiteral :: (BOOL_LITERALS ++ INT_LITERALS)) (name :: rest) := by
    rintro _ ⟨⟩
    rw [hname]
    decide
  simp only [parseUnaryExpression, parseLenExpression_none (hname.trans_ne (by decide)), Parsed.orElse,
    parseNotExpression_none (hname.trans_ne (by decide)), parseNegateExpression_none (hname.trans_ne (by decide)),
    parseLiteral_none noLiteral]

private theorem parseUnaryExpression_parenthesis {opening : Token} (hopening : opening.type = openParenthesis)
    (n : Nat) :
    parseUnaryExpression (n + 1) ⟨opening :: rest, errors⟩ =
      parseParenthesisExpression (parseExpressionWithLength n none) ⟨opening :: rest, errors⟩ := by
  have noLiteral : HeadNotIn (sub :: stringLiteral :: charLiteral :: (BOOL_LITERALS ++ INT_LITERALS)) (opening :: rest) := by
    rintro _ ⟨⟩
    rw [hopening]
    decide
  have noName : parseIdentifier ⟨opening :: rest, errors⟩ = (none, ⟨opening :: rest, errors⟩) := by
    simp [parseIdentifier, parseTable, Parser.nextTokenInTable_cons, hopening, KEYWORDS]
  have noCall : ((⟨opening :: rest, errors⟩ : Parser).peekToken 0 identifier &&
      (⟨opening :: rest, errors⟩ : Parser).peekToken 1 openParenthesis) = false := by
    simp [Parser.peekToken, hopening]
  simp only [parseUnaryExpression, parseLenExpression_none (hopening.trans_ne (by decide)), Parsed.orElse,
    parseNotExpression_none (hopening.trans_ne (by decide)), parseNegateExpression_none (hopening.trans_ne (by decide)),
    parseLiteral_none noLiteral, parseMethodCall_none noCall, parseLocation_none noName, Parsed.wrap]

section
variable {expression : Parser → Parsed} {n : Nat} {name opening closing : Token}

private theorem parseMethodCall_empty (hname : name.type = identifier) (hopening : opening.type = openParenthesis)
    (hclosing : closing.type = closeParenthesis) :
    parseMethodCall expression n ⟨name :: opening :: closing :: rest, errors⟩ =
      (some (AstCall.toNode ⟨name, .nil⟩), ⟨rest, errors⟩) := by
  simp [parseMethodCall, Parser.peekToken, Parser.nextToken_cons, hname, hopening, hclosing, AstCall.toNode,
    AstArguments.toNodes]

private theorem parseMethodCall_arguments {tokens : List Token} {arguments : AstArguments}
    (hname : name.type = identifier)
    (hopening : opening.type = openParenthesis) (operands : DerivesArguments tokens arguments)
    (parsed : parseSeparated (parseMethodCallArgument expression) "Expected argument in method call" closeParenthesis
      "Expected comma or closing parenthesis in method call" n [leaf .identifier name] ⟨tokens ++ rest, errors⟩ =
      ([leaf .identifier name] ++ arguments.toNodes, ⟨rest, errors⟩)) :
    parseMethodCall expression n ⟨name :: opening :: (tokens ++ rest), errors⟩ =
      (some (AstCall.toNode ⟨name, arguments⟩), ⟨rest, errors⟩) := by
  obtain ⟨token, tokens, rfl, first⟩ := operands.head
  have more : HeadNotIn [closeParenthesis] (token :: (tokens ++ rest)) := by
    rintro _ ⟨⟩ type
    rw [List.mem_singleton.mp type] at first
    exact absurd first (by decide)
  rw [List.cons_append] at parsed ⊢
  simp [parseMethodCall, Parser.peekToken, Parser.nextToken_cons, hname, hopening, nextToken_none more, parsed,
    AstCall.toNode]

private theorem parseLocation_scalar (hname : name.type = identifier) (noIndex : HeadNotIn [openSquareBracket] rest) :
    parseLocation expression ⟨name :: rest, errors⟩ = (some (AstLocation.scalar name).toNode, ⟨rest, errors⟩) := by
  simp [parseLocation, hname, nextToken_none noIndex, AstLocation.toNode]

private theorem parseLocation_element {tokens : List Token} {index : AstExpression} (hname : name.type = identifier)
    (hopening : opening.type = openSquareBracket) (hclosing : closing.type = closeSquareBracket)
    (parsed : expression ⟨tokens ++ closing :: rest, errors⟩ = (some index.toNode, ⟨closing :: rest, errors⟩)) :
    parseLocation expression ⟨name :: opening :: (tokens ++ closing :: rest), errors⟩ =
      (some (AstLocation.element name index).toNode, ⟨rest, errors⟩) := by
  simp [parseLocation, hname, Parser.nextToken_cons, hopening, parsed, hclosing, Parsed.require, AstLocation.toNode]

end

end

mutual

/-- A derived operand is parsed with enough fuel. -/
theorem DerivesUnary.parse {tokens : List Token} {expression : AstExpression} :
    DerivesUnary tokens expression → ∀ n rest errors, 2 * tokens.length ≤ n + 1 → FollowsOperand rest →
      parseUnaryExpression n ⟨tokens ++ rest, errors⟩ = (some expression.toNode, ⟨rest, errors⟩)
  | .len hkeyword hopening hname hclosing => by
    rintro (_ | n) rest errors bound follows
    · simp at bound
    · simp [parseUnaryExpression, parseLenExpression, Parser.nextToken_cons, hkeyword, hopening, hname, hclosing,
        Parsed.orElse, Parsed.wrap, Parsed.require, AstExpression.toNode]
  | .not hoperator operand => by
    rintro (_ | n) rest errors bound follows
    · rw [List.length_cons] at bound
      omega
    · rw [List.length_cons] at bound
      have parsed := operand.parse n rest errors (by omega) follows
      simp [parseUnaryExpression, parseLenExpression_none, parseNotExpression, Parser.nextToken_cons, hoperator, parsed,
        Parsed.orElse, Parsed.wrap, Parsed.require, AstExpression.toNode]
  | .negate hoperator operand head => by
    rintro (_ | n) rest errors bound follows
    · rw [List.length_cons] at bound
      omega
    · rw [List.length_cons] at bound
      have parsed := operand.parse n rest errors (by omega) follows
      obtain ⟨token, tokens, rfl, _⟩ := operand.head
      have notInteger := head token rfl
      simp only [INT_LITERALS, List.mem_cons, List.not_mem_nil, or_false, not_or] at notInteger
      rw [List.cons_append] at parsed
      simp [parseUnaryExpression, parseLenExpression_none, parseNotExpression_none, parseNegateExpression,
        Parser.peekToken, Parser.nextToken_cons, hoperator, notInteger, parsed, Parsed.orElse, Parsed.wrap,
        Parsed.require, AstExpression.toNode]
  | @DerivesUnary.literal value kind => by
    rintro (_ | n) rest errors bound follows
    · simp at bound
    · have other : value.type ≠ keywordLen ∧ value.type ≠ .not ∧ value.type ≠ sub := by
        refine ⟨?_, ?_, ?_⟩ <;>
        · intro type
          rw [type] at kind
          exact absurd kind (by decide)
      have parsed : parseLiteral ⟨value :: rest, errors⟩ = _ := (DerivesLiteral.plain kind).parse
      simp [parseUnaryExpression, parseLenExpression_none, parseNotExpression_none, parseNegateExpression_none, other,
        parsed, Parsed.orElse, Parsed.wrap, AstExpression.toNode]
  | @DerivesUnary.negatedLiteral minus value sign kind => by
    rintro (_ | n) rest errors bound follows
    · simp at bound
    · have parsed : parseLiteral ⟨minus :: value :: rest, errors⟩ = _ :=
        (DerivesLiteral.negated sign (by simp [kind])).parse
      have integer : value.type = hexLiteral ∨ value.type = decimalLiteral := by simpa [INT_LITERALS] using kind
      simp [parseUnaryExpression, parseLenExpression_none, parseNotExpression_none, parseNegateExpression,
        Parser.peekToken, sign, integer, parsed, Parsed.orElse, Parsed.wrap, AstExpression.toNode]
  | .call hname hopening hclosing => by
    rintro (_ | n) rest errors bound follows
    · simp at bound
    · simp only [List.cons_append, List.nil_append]
      rw [parseUnaryExpression_name hname, parseMethodCall_empty hname hopening hclosing]
      rfl
  | @DerivesUnary.callWith name _ _ _ hname hopening operands => by
    rintro (_ | n) rest errors bound follows
    · simp only [List.length_cons] at bound
      omega
    · simp only [List.length_cons] at bound
      have parsed := operands.parse n n [leaf .identifier name] rest errors (by omega) (by omega)
      simp only [List.cons_append]
      rw [parseUnaryExpression_name hname, parseMethodCall_arguments hname hopening operands parsed]
      rfl
  | @DerivesUnary.scalar name hname => by
    rintro (_ | n) rest errors bound follows
    · simp at bound
    · have noIndex : HeadNotIn [openSquareBracket] rest := fun token mem type =>
        follows.head token mem (List.mem_cons_of_mem _ type)
      have noCall : (⟨name :: rest, errors⟩ : Parser).peekToken 1 openParenthesis = false := by
        cases rest with
        | nil => rfl
        | cons token rest =>
          have := follows.head token rfl
          simp only [List.mem_cons, not_or] at this
          simp [Parser.peekToken, this]
      simp only [List.cons_append, List.nil_append]
      rw [parseUnaryExpression_name hname, parseMethodCall_none (by rw [noCall, Bool.and_false]), Parsed.orElse,
        parseLocation_scalar hname noIndex]
      rfl
  | @DerivesUnary.element name opening closing _ _ hname hopening operand hclosing => by
    rintro (_ | n) rest errors bound follows
    · simp only [List.length_cons, List.length_append] at bound
      omega
    · simp only [List.length_cons, List.length_append, List.length_nil] at bound
      have parsed := operand.parse n none (closing :: rest) errors (by omega)
        (Or.inl ⟨rfl, terminated_cons (by rw [hclosing]; rfl)⟩)
      simp only [List.cons_append, List.append_assoc, List.nil_append]
      rw [parseUnaryExpression_name hname, parseMethodCall_none (by simp [Parser.peekToken, hopening]), Parsed.orElse,
        parseLocation_element hname hopening hclosing parsed]
      rfl
  | .parenthesis hopening operand hclosing => by
    rintro (_ | n) rest errors bound follows
    · simp only [List.length_cons, List.length_append] at bound
      omega
    · simp only [List.length_cons, List.length_append, List.length_nil] at bound
      have parsed := operand.parse n none (_ :: rest) errors (by omega)
        (Or.inl ⟨rfl, terminated_cons (by rw [hclosing]; rfl)⟩)
      simp only [List.cons_append, List.append_assoc, List.nil_append, parseUnaryExpression_parenthesis hopening]
      simp [parseParenthesisExpression, Parser.nextToken_cons, hopening, parsed, hclosing, Parsed.require]

/-- A derived expression is parsed with enough fuel. -/
theorem DerivesBinary.parse {level : Nat} {tokens : List Token} {expression : AstExpression} :
    DerivesBinary level tokens expression → ∀ n length rest errors, 2 * tokens.length ≤ n → Behind length tokens rest →
      parseExpressionWithLength n length ⟨tokens ++ rest, errors⟩ = (some expression.toNode, ⟨rest, errors⟩)
  | .unary operand => by
    rintro (_ | n) length rest errors bound behind
    · obtain ⟨_, _, rfl, _⟩ := operand.head
      simp at bound
    · have parsed := operand.parse n rest errors (by omega) behind.follows
      have noOperator := operand.findsOperators.window behind
      simp [parseExpressionWithLength, parseBinaryExpression, findBinaryOperatorIndices, noOperator, Parsed.wrap,
        Parsed.orElse, parsed]
  | @DerivesBinary.binary _ operator first second left right hoperator hlevel hleft hright => by
    rintro (_ | n) length rest errors bound behind
    · simp at bound
    · simp only [List.length_append, List.length_cons] at bound
      obtain ⟨before, above, finds⟩ := hleft.findsOperators
      obtain ⟨after, above', finds'⟩ := hright.findsOperators
      have found := (finds.binary finds' hoperator).window behind
      have lowest := @getLowestPrecedenceIndex_eq before (after.map (shiftIndex (first.length + 1)))
        (first.length, operator.type) above (by
          rintro _ mem
          obtain ⟨index, among, rfl⟩ := List.mem_map.mp mem
          exact above' index among)
      obtain ⟨index, indices, split⟩ := List.exists_cons_of_ne_nil (show before ++ (first.length, operator.type) ::
        after.map (shiftIndex (first.length + 1)) ≠ [] by simp)
      rw [split] at found lowest
      have parsedLeft := hleft.parse n (some first.length) (operator :: (second ++ rest)) errors (by omega)
        (Or.inr ⟨rfl, follows_cons hoperator⟩)
      have parsedRight := hright.parse n (length.map (· - (first.length + 1))) rest errors (by omega) (by
        rcases behind with ⟨rfl, terminated⟩ | ⟨rfl, follows⟩
        · exact Or.inl ⟨rfl, terminated⟩
        · refine Or.inr ⟨?_, follows⟩
          simp only [Option.map_some, List.length_append, List.length_cons]
          congr 1
          omega)
      simp only [List.append_assoc, List.cons_append] at found ⊢
      simp [parseExpressionWithLength, parseBinaryExpression, findBinaryOperatorIndices, found, lowest, parsedLeft,
        Parsed.require, Parser.moveTo, parseBinaryOperator, parseTable_cons hoperator, parsedRight, Parsed.wrap,
        Parsed.orElse, AstExpression.toNode]

/-- Derived arguments are parsed up to the closing parenthesis. -/
theorem DerivesArguments.parse {tokens : List Token} {arguments : AstArguments} :
    DerivesArguments tokens arguments → ∀ n m children rest errors, 2 * tokens.length ≤ n → tokens.length ≤ m →
      parseSeparated (parseMethodCallArgument (parseExpressionWithLength n none)) "Expected argument in method call"
        closeParenthesis "Expected comma or closing parenthesis in method call" m children ⟨tokens ++ rest, errors⟩ =
        (children ++ arguments.toNodes, ⟨rest, errors⟩)
  | .lastString hstring hclosing => by
    rintro n (_ | m) children rest errors bound bound'
    · simp at bound'
    · exact parseSeparated_close (parseMethodCallArgument_string hstring) hclosing (by decide)
  | @DerivesArguments.lastExpression closing tokens expression operand hclosing => by
    rintro n (_ | m) children rest errors bound bound'
    · simp at bound'
    · simp only [List.length_append, List.length_cons, List.length_nil] at bound
      have parsed := operand.parse n none (closing :: rest) errors (by omega)
        (Or.inl ⟨rfl, terminated_cons (by rw [hclosing]; rfl)⟩)
      obtain ⟨token, tokens, rfl, mem⟩ := operand.head
      simp only [List.append_assoc, List.cons_append, List.nil_append] at parsed ⊢
      exact parseSeparated_close (parseMethodCallArgument_expression mem parsed) hclosing (by decide)
  | @DerivesArguments.string string _ _ _ hstring hseparator operands => by
    rintro n (_ | m) children rest errors bound bound'
    · simp at bound'
    · simp only [List.length_cons] at bound bound'
      have parsed := operands.parse n m (children ++ [inner .methodCallArgument [leaf .stringLiteral string]]) rest
        errors (by omega) (by omega)
      rw [List.cons_append, List.cons_append, parseSeparated_comma (parseMethodCallArgument_string hstring) hseparator,
        parsed]
      simp [AstArguments.toNodes]
  | @DerivesArguments.expression separator tokens others expression _ operand hseparator operands => by
    rintro n (_ | m) children rest errors bound bound'
    · simp at bound'
    · simp only [List.length_append, List.length_cons] at bound bound'
      have parsed := operand.parse n none (separator :: (others ++ rest)) errors (by omega)
        (Or.inl ⟨rfl, terminated_cons (by rw [hseparator]; rfl)⟩)
      have parsed' := operands.parse n m (children ++ [inner .methodCallArgument [expression.toNode]]) rest errors
        (by omega) (by omega)
      obtain ⟨token, tokens, rfl, mem⟩ := operand.head
      simp only [List.append_assoc, List.cons_append] at parsed ⊢
      rw [parseSeparated_comma (parseMethodCallArgument_expression mem parsed) hseparator, parsed']
      simp [AstArguments.toNodes]

end

theorem DerivesExpression.parse {tokens rest : List Token} {errors : List String} {expression : AstExpression}
    (derives : DerivesExpression tokens expression) {n : Nat} (bound : 2 * tokens.length ≤ n)
    (terminated : Terminated rest) :
    parseExpression n ⟨tokens ++ rest, errors⟩ = (some expression.toNode, ⟨rest, errors⟩) :=
  DerivesBinary.parse derives n none rest errors bound (Or.inl ⟨rfl, terminated⟩)

theorem DerivesCall.parse {tokens rest : List Token} {errors : List String} {call : AstCall}
    (derives : DerivesCall tokens call) {n : Nat} (bound : 2 * tokens.length ≤ n) :
    parseMethodCall (parseExpression n) n ⟨tokens ++ rest, errors⟩ = (some call.toNode, ⟨rest, errors⟩) := by
  cases derives with
  | empty hname hopening hclosing => exact parseMethodCall_empty hname hopening hclosing
  | @arguments name _ _ _ hname hopening operands =>
    simp only [List.length_cons] at bound
    exact parseMethodCall_arguments hname hopening operands
      (operands.parse n n [leaf .identifier name] rest errors (by omega) (by omega))

theorem DerivesLocation.parse {tokens rest : List Token} {errors : List String} {location : AstLocation}
    (derives : DerivesLocation tokens location) {n : Nat} (bound : 2 * tokens.length ≤ n)
    (noIndex : HeadNotIn [openSquareBracket] rest) :
    parseLocation (parseExpression n) ⟨tokens ++ rest, errors⟩ = (some location.toNode, ⟨rest, errors⟩) := by
  cases derives with
  | scalar hname => exact parseLocation_scalar hname noIndex
  | element hname hopening operand hclosing =>
    simp only [List.length_cons, List.length_append, List.length_nil] at bound
    simp only [List.cons_append, List.append_assoc, List.nil_append]
    exact parseLocation_element hname hopening hclosing
      (operand.parse (by omega) (terminated_cons (by rw [hclosing]; rfl)))

/-- `parse_expression` decides whether a prefix of the tokens is an expression, and builds the tree of its only
derivation. -/
theorem parseExpression_correct :
    (∀ tokens expression, DerivesExpression tokens expression → ∀ rest errors n, 2 * tokens.length ≤ n →
      Terminated rest →
      parseExpression n ⟨tokens ++ rest, errors⟩ = (some expression.toNode, ⟨rest, errors⟩) ∧
      ∀ other, DerivesExpression tokens other → other.toNode = expression.toNode) ∧
    ∀ n p node p', parseExpression n p = (some node, p') → p'.errors = [] →
      ∃ tokens expression, p.tokens = tokens ++ p'.tokens ∧ DerivesExpression tokens expression ∧
        node = expression.toNode ∧ ∀ other, DerivesExpression tokens other → other.toNode = node := by
  have unique {tokens : List Token} {expression other : AstExpression} (derives : DerivesExpression tokens expression)
      (derives' : DerivesExpression tokens other) : other.toNode = expression.toNode := by
    have parsed := @DerivesExpression.parse tokens [] [] expression derives _ le_rfl (by simp [Terminated])
    rw [derives'.parse le_rfl (by simp [Terminated])] at parsed
    exact Option.some.inj (congrArg Prod.fst parsed)
  constructor
  · intro tokens expression derives rest errors n bound terminated
    exact ⟨derives.parse bound terminated, fun other => unique derives⟩
  · intro n p node p' parsed fine
    obtain ⟨_, found⟩ := parseExpression_sound n p (by rw [parsed]; exact fine)
    rw [parsed] at found
    obtain ⟨tokens, split, expression, derives, rfl⟩ := found
    exact ⟨tokens, expression, split, derives, rfl, fun other => unique derives⟩

/-- The tokens of `-1 - x;` -/
theorem parseExpression_correct_difference :
    parseExpression 8 ⟨[⟨sub, 0, 1⟩, ⟨decimalLiteral, 1, 1⟩, ⟨sub, 3, 1⟩, ⟨identifier, 5, 1⟩, ⟨semicolon, 6, 1⟩], []⟩ =
      (some (AstExpression.binary (.literal ⟨some ⟨sub, 0, 1⟩, ⟨decimalLiteral, 1, 1⟩⟩) ⟨sub, 3, 1⟩
        (.scalar ⟨identifier, 5, 1⟩)).toNode, ⟨[⟨semicolon, 6, 1⟩], []⟩) := by
  have derives : DerivesExpression ([⟨sub, 0, 1⟩, ⟨decimalLiteral, 1, 1⟩] ++ ⟨sub, 3, 1⟩ :: [⟨identifier, 5, 1⟩])
      (.binary (.literal ⟨some ⟨sub, 0, 1⟩, ⟨decimalLiteral, 1, 1⟩⟩) ⟨sub, 3, 1⟩ (.scalar ⟨identifier, 5, 1⟩)) :=
    .binary (by decide) (Nat.zero_le _) (.unary (.negatedLiteral rfl (by decide))) (.unary (.scalar rfl))
  exact (parseExpression_correct.1 _ _ derives [⟨semicolon, 6, 1⟩] [] 8 (by decide) (terminated_cons rfl)).1

end Roast
