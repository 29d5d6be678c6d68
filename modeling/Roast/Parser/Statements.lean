import Roast.Parser.Expressions

/-! The statement parser against the grammar. -/
namespace Roast
open TokenType AstNode

/-- What the tokens are that a node's children were built from, when no error was reported. -/
def Builds (b : Building) (p : Parser) (language : List Token → List AstNode → Prop) : Prop :=
  b.2.errors = [] → p.errors = [] ∧ ∃ tokens, p.tokens = tokens ++ b.2.tokens ∧ language tokens b.1

section
variable {b : Building} {p : Parser} {parse : Parser → Parsed} {language : List Token → List AstNode → Prop}
  {item : List Token → AstNode → Prop}

theorem Builds.start (p : Parser) (children : List AstNode) :
    Builds (children, p) p fun tokens nodes => tokens = [] ∧ nodes = children := fun fine => ⟨fine, [], rfl, rfl, rfl⟩

theorem Builds.expect (builds : Builds b p language) (type : TokenType) (message : String) :
    Builds (b.expect type message) p fun tokens nodes => ∃ before token, token.type = type ∧ tokens = before ++ [token] ∧
      language before nodes := by
  intro fine
  obtain ⟨start, token, type, last⟩ := Parser.expectToken_sound fine
  obtain ⟨start, tokens, split, mem⟩ := builds start
  refine ⟨start, tokens ++ [token], ?_, tokens, token, type, rfl, mem⟩
  rw [split, last]
  simp [Building.expect]

theorem Builds.child (builds : Builds b p language) (sound : SoundParse parse item) (message : String) :
    Builds (b.child parse message) p fun tokens nodes => ∃ before last children node, tokens = before ++ last ∧
      nodes = children ++ [node] ∧ item last node ∧ language before children := by
  intro fine
  obtain ⟨node, required, found, fine⟩ := Parsed.require_sound fine
  obtain ⟨start, last, split', mem⟩ := (sound _).eq_some fine (congrArg Prod.fst found)
  obtain ⟨start, tokens, split, mem'⟩ := builds start
  refine ⟨start, tokens ++ last, ?_, tokens, last, b.1, node, rfl, ?_, mem, mem'⟩
  · simp [Building.child, required, split, split']
  · simp [Building.child, required]

theorem Builds.mono (builds : Builds b p language) {other : List Token → List AstNode → Prop}
    (le : ∀ tokens nodes, language tokens nodes → other tokens nodes) : Builds b p other := by
  intro fine
  obtain ⟨start, tokens, split, mem⟩ := builds fine
  exact ⟨start, tokens, split, le _ _ mem⟩

theorem Builds.finish (builds : Builds b p language) {type : AstNodeType}
    (le : ∀ tokens nodes, language tokens nodes → item tokens (inner type nodes)) : Parses (b.finish type) p item := by
  intro fine
  obtain ⟨start, tokens, split, mem⟩ := builds fine
  exact ⟨start, tokens, split, le _ _ mem⟩

theorem Builds.token (builds : Builds b p language) {token : Token} {rest : List Token}
    (head : b.2.tokens = token :: rest) (more : List AstNode) :
    Builds (b.1 ++ more, ⟨rest, b.2.errors⟩) p fun tokens nodes => ∃ before children, tokens = before ++ [token] ∧
      nodes = children ++ more ∧ language before children := by
  intro fine
  obtain ⟨start, tokens, split, mem⟩ := builds fine
  exact ⟨start, tokens ++ [token], by rw [split, head]; simp, tokens, b.1, rfl, rfl, mem⟩

theorem Parses.builds {parsed : Parsed} {node : AstNode} (sound : Parses parsed p item) (some : parsed.1 = some node) :
    Builds ([node], parsed.2) p fun tokens nodes => item tokens node ∧ nodes = [node] := by
  intro fine
  obtain ⟨start, tokens, split, mem⟩ := sound.eq_some fine some
  exact ⟨start, tokens, split, mem, rfl⟩

/-- A node that may be missing. -/
private theorem Parses.optional {parsed : Parsed} (sound : Parses parsed p item) :
    Builds (parsed.1.toList, parsed.2) p fun tokens nodes =>
      tokens = [] ∧ nodes = [] ∨ ∃ node, item tokens node ∧ nodes = [node] := by
  intro fine
  obtain ⟨start, found⟩ := sound fine
  refine ⟨start, ?_⟩
  split at found
  · rename_i none
    exact ⟨[], by simp [found], Or.inl ⟨rfl, by simp [none]⟩⟩
  · rename_i node some
    obtain ⟨tokens, split, mem⟩ := found
    exact ⟨tokens, split, Or.inr ⟨node, mem, by simp [some]⟩⟩

/-- Items in a row that are parsed are derived. -/
theorem parseMany_sound (sound : SoundParse parse item) (n : Nat) (builds : Builds b p language) :
    Builds (parseMany parse n b) p fun tokens nodes => ∃ before last children items, tokens = before ++ last ∧
      nodes = children ++ items ∧ Repeated item last items ∧ language before children := by
  induction n generalizing b language with
  | zero => intro fine; simp [parseMany] at fine
  | succ n ih =>
    have parsed := sound b.2
    rw [parseMany]
    cases found : parse b.2 with
    | mk node p' =>
      rw [found] at parsed
      cases node with
      | none =>
        intro fine
        obtain ⟨start, rfl⟩ := parsed fine
        obtain ⟨start, tokens, split, mem⟩ := builds start
        exact ⟨start, tokens, split, tokens, [], b.1, [], by simp, by simp, .nil, mem⟩
      | some node =>
        have step : Builds (b.1 ++ [node], p') p fun tokens nodes => ∃ before last, tokens = before ++ last ∧
            ∃ children, nodes = children ++ [node] ∧ item last node ∧ language before children := by
          intro fine
          obtain ⟨start, last, split, mem⟩ := parsed fine
          obtain ⟨start, tokens, split', mem'⟩ := builds start
          exact ⟨start, tokens ++ last, by rw [split', split, List.append_assoc], tokens, last, rfl, b.1, rfl, mem, mem'⟩
        refine (ih step).mono ?_
        rintro _ _ ⟨_, last, _, items, rfl, rfl, repeated, before, first, rfl, children, rfl, mem, mem'⟩
        exact ⟨before, first ++ last, children, node :: items, by simp, by simp, .cons mem repeated, mem'⟩

theorem parseAfter_sound {type : TokenType} {nodeType : AstNodeType} {steps : Building → Building}
    (builds : ∀ p, Builds (steps ([], p)) p language)
    (le : ∀ token tokens nodes, token.type = type → language tokens nodes →
      item (token :: tokens) (inner nodeType nodes)) : SoundParse (parseAfter type fun b => (steps b).finish nodeType) item := by
  intro p
  rw [parseAfter]
  cases next : p.nextToken type with
  | none => exact Parses.nothing
  | some found =>
    intro fine
    obtain ⟨same, first, errors⟩ := Parser.nextToken_eq_some next
    obtain ⟨start, tokens, split, mem⟩ := builds found.2 fine
    exact ⟨errors ▸ start, found.1 :: tokens, by rw [first, split, List.cons_append]; rfl, le _ _ _ same mem⟩

end

section
variable (n : Nat)

def AssignmentNode (tokens : List Token) (node : AstNode) : Prop :=
  ∃ assignment, DerivesAssignment tokens assignment ∧ node = assignment.toNode

/-- An assignment that is parsed is derived. -/
private theorem parseAssignment_sound : SoundParse (parseAssignment n) AssignmentNode := by
  intro p
  have location := parseLocation_sound (parseExpression_sound n) p
  rw [parseAssignment]
  cases found : parseLocation (parseExpression n) p with
  | mk node p' =>
    rw [found] at location
    cases node with
    | none => exact location
    | some node =>
      simp only
      have builds := location.builds rfl
      rcases parseTable_cases ASSIGN_OPERATORS .assignOperator p' with none | ⟨operator, rest, consumed, mem, some⟩
      · rcases parseTable_cases INCREMENT_OPERATORS .incrementOperator p' with none' | ⟨operator, rest, consumed, mem, some⟩
        · simp only [parseAssignOperator, none, parseIncrementOperator, none']
          intro fine
          simp at fine
        · simp only [parseAssignOperator, none, parseIncrementOperator, some]
          refine Builds.finish (builds.token consumed [leaf .incrementOperator operator]) ?_
          rintro _ _ ⟨tokens, _, rfl, rfl, ⟨location, derives, rfl⟩, rfl⟩
          exact ⟨_, .increment derives mem, rfl⟩
      · simp only [parseAssignOperator, some]
        refine Builds.finish ((builds.token consumed [leaf .assignOperator operator]).child (parseExpression_sound n) _) ?_
        rintro _ _ ⟨_, last, _, _, rfl, rfl, ⟨expression, derives', rfl⟩, tokens, _, rfl, rfl, ⟨place, derives, rfl⟩, rfl⟩
        exact ⟨.assign place operator expression, by simpa using .assign derives mem derives', rfl⟩

def ForUpdateNode (tokens : List Token) (node : AstNode) : Prop :=
  ∃ update, DerivesForUpdate tokens update ∧ node = update.toNode

private theorem parseForUpdate_sound : SoundParse (parseForUpdate n) ForUpdateNode := by
  intro p
  refine Parses.wrap ?_ fun _ _ => id
  refine SoundParse.orElse ((parseMethodCall_sound (parseExpression_sound n) n).mono ?_)
    ((parseAssignment_sound n).mono ?_) p
  · rintro tokens node ⟨call, derives, rfl⟩
    exact ⟨_, .methodCall derives, rfl⟩
  · rintro tokens node ⟨assignment, derives, rfl⟩
    exact ⟨_, .assignment derives, rfl⟩

def StatementChild (tokens : List Token) (child : AstNode) : Prop :=
  ∃ statement, DerivesStatement tokens statement ∧ child = statement.toChild

def BlockNode (tokens : List Token) (node : AstNode) : Prop := ∃ block, DerivesBlock tokens block ∧ node = block.toNode

private theorem parseContinueStatement_sound : SoundParse parseContinueStatement StatementChild := by
  refine parseAfter_sound (fun p => (Builds.start p []).expect _ _) ?_
  rintro keyword _ _ hkeyword ⟨_, closing, hclosing, rfl, rfl, rfl⟩
  exact ⟨_, .continueStatement hkeyword hclosing, rfl⟩

private theorem parseBreakStatement_sound : SoundParse parseBreakStatement StatementChild := by
  refine parseAfter_sound (fun p => (Builds.start p []).expect _ _) ?_
  rintro keyword _ _ hkeyword ⟨_, closing, hclosing, rfl, rfl, rfl⟩
  exact ⟨_, .breakStatement hkeyword hclosing, rfl⟩

private theorem parseReturnStatement_sound : SoundParse (parseReturnStatement n) StatementChild := by
  refine parseAfter_sound (fun p => (parseExpression_sound n p).optional.expect _ _) ?_
  rintro keyword _ _ hkeyword ⟨tokens, closing, hclosing, rfl, ⟨rfl, rfl⟩ | ⟨_, ⟨expression, derives, rfl⟩, rfl⟩⟩
  · exact ⟨_, .returnStatement hkeyword hclosing, rfl⟩
  · exact ⟨_, .returnExpression hkeyword derives hclosing, rfl⟩

variable {block : Parser → Parsed}

private theorem parseWhileStatement_sound (sound : SoundParse block BlockNode) :
    SoundParse (parseWhileStatement n block) StatementChild := by
  refine parseAfter_sound (fun p => ((((Builds.start p []).expect _ _).child (parseExpression_sound n) _).expect _ _).child
    sound _) ?_
  rintro keyword _ _ hkeyword ⟨_, _, _, _, rfl, rfl, ⟨block, hblock, rfl⟩, _, closing, hclosing, rfl, _, _, _, _, rfl, rfl,
    ⟨condition, hcondition, rfl⟩, _, opening, hopening, rfl, rfl, rfl⟩
  refine ⟨.whileStatement condition block, ?_, rfl⟩
  simpa using DerivesStatement.whileStatement (.mk hkeyword hopening hcondition hclosing) hblock

/-- A for statement that is parsed is derived. -/
private theorem parseForStatement_sound (sound : SoundParse block BlockNode) :
    SoundParse (parseForStatement n block) StatementChild := by
  refine parseAfter_sound (fun p => ((((((((((Builds.start p []).expect _ _).child parseIdentifier_sound _).expect _ _).child
    (parseExpression_sound n) _).expect _ _).child (parseExpression_sound n) _).expect _ _).child
    (parseForUpdate_sound n) _).expect _ _).child sound _) ?_
  rintro keyword _ _ hkeyword ⟨_, _, _, _, rfl, rfl, ⟨block, hblock, rfl⟩, _, closing, hclosing, rfl, _, _, _, _, rfl, rfl,
    ⟨update, hupdate, rfl⟩, _, second, hsecond, rfl, _, _, _, _, rfl, rfl, ⟨condition, hcondition, rfl⟩, _, first, hfirst,
    rfl, _, _, _, _, rfl, rfl, ⟨initial, hinitial, rfl⟩, _, equals, hequals, rfl, _, _, _, _, rfl, rfl,
    ⟨name, hname, rfl, rfl⟩, _, opening, hopening, rfl, rfl, rfl⟩
  refine ⟨.forStatement name initial condition update block, ?_, rfl⟩
  simpa using DerivesStatement.forStatement (.mk hkeyword hopening hname hequals hinitial hfirst hcondition hsecond hupdate
    hclosing) hblock

def IfChildren (tokens : List Token) (nodes : List AstNode) : Prop :=
  ∃ opening closing tokens' condition rest ifBlock, opening.type = openParenthesis ∧
    DerivesExpression tokens' condition ∧ closing.type = closeParenthesis ∧ DerivesBlock rest ifBlock ∧
    (tokens = opening :: (tokens' ++ closing :: rest) ∧ nodes = [condition.toNode, ifBlock.toNode] ∨
      ∃ keyword last elseBlock, keyword.type = keywordElse ∧ DerivesBlock last elseBlock ∧
        tokens = opening :: (tokens' ++ closing :: (rest ++ keyword :: last)) ∧
        nodes = [condition.toNode, ifBlock.toNode, elseBlock.toNode])

/-- An if statement that is parsed is derived. -/
private theorem parseIfStatement_sound (sound : SoundParse block BlockNode) :
    SoundParse (parseIfStatement n block) StatementChild := by
  refine parseAfter_sound (?_ : ∀ p, Builds _ p IfChildren) ?_
  · intro p
    have builds := ((((Builds.start p []).expect openParenthesis "Expected open parenthesis in if statement").child
      (parseExpression_sound n) "Expected expression in if statement").expect closeParenthesis
      "Expected close parenthesis in if statement").child sound "Expected block in if statement"
    split
    · rename_i keyword p' next
      obtain ⟨hkeyword, head, errors⟩ := Parser.nextToken_eq_some next
      have more := (builds.token head []).child sound "Expected block in else statement"
      rw [List.append_nil, ← errors] at more
      refine more.mono ?_
      rintro _ _ ⟨_, last, _, _, rfl, rfl, ⟨elseBlock, helse, rfl⟩, _, _, rfl, rfl, _, rest, _, _, rfl, rfl,
        ⟨ifBlock, hblock, rfl⟩, _, closing, hclosing, rfl, _, tokens, _, _, rfl, rfl, ⟨condition, hcondition, rfl⟩, _,
        opening, hopening, rfl, rfl, rfl⟩
      exact ⟨opening, closing, tokens, condition, rest, ifBlock, hopening, hcondition, hclosing, hblock,
        Or.inr ⟨keyword, last, elseBlock, hkeyword, helse, by simp, by simp⟩⟩
    · refine builds.mono ?_
      rintro _ _ ⟨_, rest, _, _, rfl, rfl, ⟨ifBlock, hblock, rfl⟩, _, closing, hclosing, rfl, _, tokens, _, _, rfl, rfl,
        ⟨condition, hcondition, rfl⟩, _, opening, hopening, rfl, rfl, rfl⟩
      exact ⟨opening, closing, tokens, condition, rest, ifBlock, hopening, hcondition, hclosing, hblock,
        Or.inl ⟨by simp, by simp⟩⟩
  · rintro keyword _ _ hkeyword ⟨opening, closing, tokens, condition, rest, ifBlock, hopening, hcondition, hclosing, hblock,
      ⟨rfl, rfl⟩ | ⟨keyword', last, elseBlock, hkeyword', helse, rfl, rfl⟩⟩
    · refine ⟨.ifStatement condition ifBlock, ?_, rfl⟩
      simpa using DerivesStatement.ifStatement (.mk hkeyword hopening hcondition hclosing) hblock
    · refine ⟨.ifElseStatement condition ifBlock elseBlock, ?_, rfl⟩
      simpa using DerivesStatement.ifElseStatement (.mk hkeyword hopening hcondition hclosing) hblock hkeyword' helse

private theorem parseSemicolon_sound {parse : Parser → Parsed} {item : List Token → AstNode → Prop}
    (sound : SoundParse parse item)
    (message : String) : SoundParse (parseSemicolon parse message) fun tokens node => ∃ before closing,
      closing.type = semicolon ∧ tokens = before ++ [closing] ∧ item before node := by
  intro p
  have parsed := sound p
  rw [parseSemicolon]
  cases found : parse p with
  | mk node p' =>
    rw [found] at parsed
    cases node with
    | none => exact parsed
    | some node =>
      intro fine
      obtain ⟨start, closing, hclosing, last⟩ := Parser.expectToken_sound fine
      obtain ⟨start, tokens, split, mem⟩ := parsed start
      refine ⟨start, tokens ++ [closing], ?_, tokens, closing, hclosing, rfl, mem⟩
      rw [split, last]
      simp

/-- A statement that is parsed is derived. -/
theorem parseStatement_sound (sound : SoundParse block BlockNode) :
    SoundParse (parseStatement n block) fun tokens node => ∃ statement, DerivesStatement tokens statement ∧
      node = inner .statement [statement.toChild] := by
  have call : SoundParse (parseMethodCallStatement n) StatementChild := by
    refine (parseSemicolon_sound (parseMethodCall_sound (parseExpression_sound n) n) _).mono ?_
    rintro _ _ ⟨before, closing, hclosing, rfl, call, derives, rfl⟩
    exact ⟨_, .methodCall derives hclosing, rfl⟩
  have assignment : SoundParse (parseAssignStatement n) StatementChild := by
    refine (parseSemicolon_sound (parseAssignment_sound n) _).mono ?_
    rintro _ _ ⟨before, closing, hclosing, rfl, assignment, derives, rfl⟩
    exact ⟨_, .assignment derives hclosing, rfl⟩
  intro p
  refine Parses.wrap ((parseIfStatement_sound n sound).orElse ((parseForStatement_sound n sound).orElse
    ((parseWhileStatement_sound n sound).orElse ((parseReturnStatement_sound n).orElse
    (parseBreakStatement_sound.orElse (parseContinueStatement_sound.orElse (call.orElse assignment)))))) p) ?_
  rintro tokens _ ⟨statement, derives, rfl⟩
  exact ⟨statement, derives, rfl⟩

end

end Roast
