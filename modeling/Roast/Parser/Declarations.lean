import Roast.Parser.Statements

/-! The parser of declarations, blocks and programs against the grammar: what is accepted is derivable. -/
namespace Roast
open TokenType AstNode

section
variable {α : Type} {derives : List Token → α → Prop} {toNode : α → AstNode} {tokens : List Token} {nodes : List AstNode}

theorem Separated.items {close : TokenType}
    (separated : Separated (fun tokens node => ∃ item, derives tokens item ∧ node = toNode item) close tokens nodes) :
    ∃ items, Separated derives close tokens items ∧ nodes = items.map toNode := by
  induction separated with
  | last mem hclosing =>
    obtain ⟨item, mem, rfl⟩ := mem
    exact ⟨[item], .last mem hclosing, rfl⟩
  | cons mem hseparator _ ih =>
    obtain ⟨item, mem, rfl⟩ := mem
    obtain ⟨items, others, rfl⟩ := ih
    exact ⟨item :: items, .cons mem hseparator others, rfl⟩

theorem Repeated.items (repeated : Repeated (fun tokens node => ∃ item, derives tokens item ∧ node = toNode item) tokens nodes) :
    ∃ items, Repeated derives tokens items ∧ nodes = items.map toNode := by
  induction repeated with
  | nil => exact ⟨[], .nil, rfl⟩
  | cons mem _ ih =>
    obtain ⟨item, mem, rfl⟩ := mem
    obtain ⟨items, others, rfl⟩ := ih
    exact ⟨item :: items, .cons mem others, rfl⟩

theorem Repeated.statements (repeated : Repeated (fun tokens node => ∃ statement, DerivesStatement tokens statement ∧
    node = inner .statement [statement.toChild]) tokens nodes) :
    ∃ statements, DerivesStatements tokens statements ∧ nodes = statements.toNodes := by
  induction repeated with
  | nil => exact ⟨.nil, .nil, rfl⟩
  | cons mem _ ih =>
    obtain ⟨statement, mem, rfl⟩ := mem
    obtain ⟨statements, others, rfl⟩ := ih
    exact ⟨.cons statement statements, .cons mem others, rfl⟩

end

section
variable (n : Nat)

/-- An array literal that is parsed is derived. -/
private theorem parseArrayLiteral_sound : SoundParse (parseArrayLiteral n) fun tokens node => ∃ opening rest literals,
    opening.type = openCurlyBracket ∧ tokens = opening :: rest ∧ Separated DerivesLiteral closeCurlyBracket rest literals ∧
      node = inner .arrayLiteral (literals.map AstLiteral.toNode) := by
  intro p
  rw [parseArrayLiteral]
  cases next : p.nextToken openCurlyBracket with
  | none => exact Parses.nothing
  | some found =>
    intro fine
    obtain ⟨hopening, first, errors⟩ := Parser.nextToken_eq_some next
    obtain ⟨start, tokens, nodes, separated, split, same⟩ := parseSeparated_sound parseLiteral_sound _ _ _ _ _ _ fine
    obtain ⟨literals, hliterals, rfl⟩ := separated.items
    refine ⟨errors ▸ start, found.1 :: tokens, ?_, found.1, tokens, literals, hopening, rfl, hliterals, ?_⟩
    · rw [first, split, List.cons_append]
    · simp only [same, List.nil_append]

private theorem parseInitializer_sound : SoundParse (parseInitializer n) fun tokens node =>
    ∃ initializer, DerivesInitializer tokens initializer ∧ node = initializer.toNode := by
  intro p
  refine Parses.wrap ?_ fun _ _ => id
  refine SoundParse.orElse ((parseArrayLiteral_sound n).mono ?_) (parseLiteral_sound.mono ?_) p
  · rintro _ _ ⟨opening, rest, literals, hopening, rfl, separated, rfl⟩
    exact ⟨_, .array hopening separated, rfl⟩
  · rintro _ _ ⟨literal, derives, rfl⟩
    exact ⟨_, .scalar derives, rfl⟩

private theorem parseFieldLength_sound {b : Building} {p : Parser} {language : List Token → List AstNode → Prop}
    (builds : Builds b p language) : Builds (parseFieldLength b) p fun tokens nodes => ∃ before rest children length,
      DerivesLength rest length ∧ tokens = before ++ rest ∧ nodes = children ++ length.toNodes ∧
      language before children := by
  rw [parseFieldLength]
  split
  · refine builds.mono ?_
    intro tokens nodes mem
    exact ⟨tokens, [], nodes, .none, .none, by simp, by simp [AstLength.toNodes], mem⟩
  · rename_i opening p' next
    obtain ⟨hopening, head, errors⟩ := Parser.nextToken_eq_some next
    rcases parseTable_cases INT_LITERALS .intLiteral p' with none | ⟨length, rest, consumed, mem, some⟩
    · simp only [parseIntLiteral, none]
      have builds := (builds.token head [inner .emptyArrayLength []]).expect closeSquareBracket
        "Expected closing square bracket in field delcaration"
      rw [← errors] at builds
      refine builds.mono ?_
      rintro _ _ ⟨_, closing, hclosing, rfl, before, children, rfl, rfl, mem⟩
      exact ⟨before, [opening, closing], children, .empty, .empty hopening hclosing, by simp, rfl, mem⟩
    · simp only [parseIntLiteral, some]
      have builds := ((builds.token head []).token consumed [leaf .intLiteral length]).expect closeSquareBracket
        "Expected closing square bracket in field delcaration"
      simp only [List.append_nil, ← errors] at builds
      refine builds.mono ?_
      rintro _ _ ⟨_, closing, hclosing, rfl, _, children, rfl, rfl, before, _, rfl, rfl, mem'⟩
      exact ⟨before, [opening, length, closing], children, .literal length, .literal hopening mem hclosing, by simp, rfl,
        mem'⟩

/-- A declarator that is parsed is derived. -/
private theorem parseFieldIdentifier_sound : SoundParse (parseFieldIdentifier n) fun tokens node =>
    ∃ declarator, DerivesDeclarator tokens declarator ∧ node = declarator.toNode := by
  intro p
  have named := parseIdentifier_sound p
  rw [parseFieldIdentifier]
  cases found : parseIdentifier p with
  | mk node p' =>
    rw [found] at named
    cases node with
    | none => exact named
    | some node =>
      have builds := parseFieldLength_sound (named.builds rfl)
      simp only
      split
      · refine builds.finish ?_
        rintro _ _ ⟨_, rest, _, length, hlength, rfl, rfl, ⟨name, hname, rfl, rfl⟩, rfl⟩
        refine ⟨_, .plain hname hlength, ?_⟩
        simp [AstDeclarator.toNode]
      · rename_i equals p'' next
        obtain ⟨hequals, head, errors⟩ := Parser.nextToken_eq_some next
        have more := (builds.token head []).child (parseInitializer_sound n) "Expected initializer in field declaration"
        rw [List.append_nil, ← errors] at more
        refine more.finish ?_
        rintro _ _ ⟨_, last, _, _, rfl, rfl, ⟨initializer, hinitializer, rfl⟩, _, _, rfl, rfl, _, rest, _, length, hlength,
          rfl, rfl, ⟨name, hname, rfl, rfl⟩, rfl⟩
        refine ⟨⟨name, length, some initializer⟩, ?_, ?_⟩
        · simpa using DerivesDeclarator.initialized hname hlength hequals hinitializer
        · simp [AstDeclarator.toNode]

def FieldNode (tokens : List Token) (node : AstNode) : Prop := ∃ field, DerivesField tokens field ∧ node = field.toNode

private theorem parseType_sound : SoundParse parseType fun tokens node =>
    ∃ type : Token, type.type ∈ TYPES ∧ tokens = [type] ∧ node = leaf .dataType type := by
  intro p
  rw [parseType]
  cases p.nextToken keywordVoid with
  | some found => intro fine; simp at fine
  | none => exact parseTable_sound TYPES .dataType p

private theorem parseFieldIdentifiers_sound {b : Building} {p : Parser} {language : List Token → List AstNode → Prop}
    {item : List Token → AstNode → Prop} (builds : Builds b p language)
    (le : ∀ before tokens children declarators, language before children →
      Separated DerivesDeclarator semicolon tokens declarators →
      item (before ++ tokens) (inner .field (children ++ declarators.map AstDeclarator.toNode))) :
    Parses (parseFieldIdentifiers n b.1 b.2) p item := by
  intro fine
  obtain ⟨start, last, nodes, separated, split, same⟩ := parseSeparated_sound (parseFieldIdentifier_sound n) _ _ _ _ _ _ fine
  obtain ⟨declarators, hdeclarators, rfl⟩ := separated.items
  obtain ⟨start, tokens, split', mem⟩ := builds start
  refine ⟨start, tokens ++ last, ?_, ?_⟩
  · rw [split', split, List.append_assoc]
    rfl
  · rw [same]
    exact le _ _ _ _ mem hdeclarators

/-- A field declaration that is parsed is derived. -/
private theorem parseField_sound : SoundParse (parseField n) FieldNode := by
  intro p
  rw [parseField]
  split
  · have typed := parseType_sound p
    cases found : parseType p with
    | mk node p' =>
      rw [found] at typed
      cases node with
      | none => exact typed
      | some node =>
        refine parseFieldIdentifiers_sound n (typed.builds rfl) ?_
        rintro _ tokens _ declarators ⟨⟨type, htype, rfl, rfl⟩, rfl⟩ separated
        exact ⟨_, .ordinary htype separated, rfl⟩
  · rename_i keyword p' next
    obtain ⟨hkeyword, head, errors⟩ := Parser.nextToken_eq_some next
    have builds := ((Builds.start p []).token head [inner .const []]).child parseType_sound
      "Expected type in field declaration"
    rw [← errors] at builds
    refine parseFieldIdentifiers_sound n builds ?_
    rintro _ tokens _ declarators ⟨_, _, _, _, rfl, rfl, ⟨type, htype, rfl, rfl⟩, _, _, rfl, rfl, rfl, rfl⟩ separated
    exact ⟨_, .constant hkeyword htype separated, rfl⟩

/-- A block that is parsed is derived. -/
private theorem parseBlock_sound (m : Nat) : SoundParse (parseBlock n m) BlockNode := by
  induction m with
  | zero => intro p fine; simp [parseBlock] at fine
  | succ m ih =>
    refine parseAfter_sound (fun p => (parseMany_sound (parseStatement_sound n ih) n (parseMany_sound (parseField_sound n) n
      (Builds.start p []))).expect _ _) ?_
    rintro opening _ _ hopening ⟨_, closing, hclosing, rfl, _, rest, _, nodes, rfl, rfl, repeated, _, tokens, _, nodes', rfl,
      rfl, repeated', rfl, rfl⟩
    obtain ⟨statements, hstatements, rfl⟩ := repeated.statements
    obtain ⟨fields, hfields, rfl⟩ := repeated'.items
    refine ⟨.mk fields statements, ?_, rfl⟩
    simpa using DerivesBlock.mk hopening hfields hstatements hclosing

/-- The tokens from the parameters on to the closing parenthesis, with commas that may be missing. -/
def ParameterNodes (tokens : List Token) (nodes : List AstNode) : Prop :=
  (∃ closing : Token, closing.type = closeParenthesis ∧ tokens = [closing] ∧ nodes = []) ∨
  ∃ parameters, DerivesParameters True tokens parameters ∧ nodes = parameters.map AstParameter.toNode

/-- A parameter that is parsed is derived. -/
private theorem parseMethodArgument_sound : SoundParse parseMethodArgument fun tokens node => ∃ type name : Token,
    type.type ∈ TYPES ∧ name.type = identifier ∧ tokens = [type, name] ∧ node = AstParameter.toNode ⟨type, name⟩ := by
  intro p
  have typed := parseType_sound p
  rw [parseMethodArgument]
  cases found : parseType p with
  | mk node p' =>
    rw [found] at typed
    cases node with
    | none => exact typed
    | some node =>
      refine ((typed.builds rfl).child parseIdentifier_sound _).finish ?_
      rintro _ _ ⟨_, _, _, _, rfl, rfl, ⟨name, hname, rfl, rfl⟩, ⟨type, htype, rfl, rfl⟩, rfl⟩
      exact ⟨type, name, htype, hname, rfl, rfl⟩

/-- Parameters that are parsed are derived, but a comma may be missing between them. -/
private theorem parseMethodArguments_sound (b : Building) (fine : (parseMethodArguments n b).2.errors = []) :
    b.2.errors = [] ∧ ∃ tokens nodes, b.2.tokens = tokens ++ (parseMethodArguments n b).2.tokens ∧
      (parseMethodArguments n b).1 = b.1 ++ nodes ∧ ParameterNodes tokens nodes := by
  induction n generalizing b with
  | zero => simp [parseMethodArguments] at fine
  | succ n ih =>
    rw [parseMethodArguments] at fine ⊢
    cases next : b.2.nextToken closeParenthesis with
    | some found =>
      simp only [next] at fine ⊢
      obtain ⟨hclosing, head, errors⟩ := Parser.nextToken_eq_some next
      exact ⟨errors ▸ fine, [found.1], [], head, by simp, Or.inl ⟨found.1, hclosing, rfl, rfl⟩⟩
    | none =>
      simp only [next] at fine ⊢
      have argument := parseMethodArgument_sound b.2
      cases found : parseMethodArgument b.2 with
      | mk node p =>
        simp only [found] at fine argument ⊢
        cases node with
        | none => simp at fine
        | some node =>
          simp only at fine ⊢
          cases separator : p.nextToken comma with
          | some separated =>
            simp only [separator] at fine ⊢
            obtain ⟨hseparator, head, errors⟩ := Parser.nextToken_eq_some separator
            by_cases extra : separated.2.peekToken 0 closeParenthesis = true
            · simp only [extra, if_true] at fine
              have := (ih _ fine).1
              simp at this
            · simp only [extra] at fine ⊢
              obtain ⟨start, tokens, nodes, split, same, parameters⟩ := ih _ fine
              obtain ⟨clean, _, split', type, name, htype, hname, rfl, rfl⟩ := argument (errors ▸ start)
              refine ⟨clean, type :: name :: separated.1 :: tokens, AstParameter.toNode ⟨type, name⟩ :: nodes, ?_, ?_, ?_⟩
              · rw [split', head, show separated.2.tokens = _ from split]
                rfl
              · rw [same]
                simp
              · rcases parameters with ⟨closing, hclosing, rfl, rfl⟩ | ⟨parameters, derives, rfl⟩
                · simp [Parser.peekToken, show separated.2.tokens = _ from split, hclosing] at extra
                · exact Or.inr ⟨_, .comma htype hname hseparator derives, rfl⟩
          | none =>
            simp only [separator] at fine ⊢
            obtain ⟨start, tokens, nodes, split, same, parameters⟩ := ih _ fine
            obtain ⟨clean, _, split', type, name, htype, hname, rfl, rfl⟩ := argument start
            refine ⟨clean, type :: name :: tokens, AstParameter.toNode ⟨type, name⟩ :: nodes, ?_, ?_, ?_⟩
            · rw [split', show p.tokens = _ from split]
              rfl
            · rw [same]
              simp
            · rcases parameters with ⟨closing, hclosing, rfl, rfl⟩ | ⟨parameters, derives, rfl⟩
              · exact Or.inr ⟨_, .last htype hname hclosing, rfl⟩
              · exact Or.inr ⟨_, .missing trivial htype hname derives, rfl⟩

theorem Builds.arguments {b : Building} {p : Parser} {language : List Token → List AstNode → Prop}
    (builds : Builds b p language) : Builds (parseMethodArguments n b) p fun tokens nodes =>
      ∃ before last children items, tokens = before ++ last ∧ nodes = children ++ items ∧ ParameterNodes last items ∧
        language before children := by
  intro fine
  obtain ⟨start, last, items, split, same, parameters⟩ := parseMethodArguments_sound n b fine
  obtain ⟨start, tokens, split', mem⟩ := builds start
  exact ⟨start, tokens ++ last, by rw [split', split, List.append_assoc], tokens, last, _, items, rfl, same, parameters,
    mem⟩

private theorem parseVoid_sound : SoundParse parseVoid fun tokens node =>
    ∃ type : Token, type.type = keywordVoid ∧ tokens = [type] ∧ node = inner .void [] := by
  intro p
  rw [parseVoid]
  cases next : p.nextToken keywordVoid with
  | none => exact Parses.nothing
  | some found =>
    intro fine
    obtain ⟨hvoid, head, errors⟩ := Parser.nextToken_eq_some next
    exact ⟨errors ▸ fine, [found.1], head, found.1, hvoid, rfl, rfl⟩

/-- A method that is parsed is derived. -/
private theorem parseMethod_sound : SoundParse (parseMethod n) fun tokens node =>
    ∃ method, DerivesMethod True tokens method ∧ node = method.toNode := by
  intro p
  have typed : Parses ((parseVoid p).orElse parseType) p fun tokens node => ∃ type : Token,
      type.type ∈ keywordVoid :: TYPES ∧ tokens = [type] ∧
      node = if type.type = keywordVoid then inner .void [] else leaf .dataType type := by
    refine SoundParse.orElse (parseVoid_sound.mono ?_) (parseType_sound.mono ?_) p
    · rintro _ _ ⟨type, hvoid, rfl, rfl⟩
      exact ⟨type, by simp [hvoid], rfl, by simp [hvoid]⟩
    · rintro _ _ ⟨type, htype, rfl, rfl⟩
      refine ⟨type, List.mem_cons_of_mem _ htype, rfl, ?_⟩
      rw [if_neg]
      intro hvoid
      rw [hvoid] at htype
      exact absurd htype (by decide)
  rw [parseMethod]
  cases found : (parseVoid p).orElse parseType with
  | mk node p' =>
    rw [found] at typed
    cases node with
    | none => exact typed
    | some node =>
      have builds := (((typed.builds rfl).child parseIdentifier_sound "Expected identifier in method declaration").expect
        openParenthesis "Expected parenthesis in method declaraction").arguments n |>.child (parseBlock_sound n n)
        "Expected block after method declaration"
      refine builds.finish ?_
      rintro _ _ ⟨_, rest, _, _, rfl, rfl, ⟨block, hblock, rfl⟩, _, tokens, _, items, rfl, rfl, parameters, _, opening,
        hopening, rfl, _, _, _, _, rfl, rfl, ⟨name, hname, rfl, rfl⟩, ⟨type, htype, rfl, rfl⟩, rfl⟩
      rcases parameters with ⟨closing, hclosing, rfl, rfl⟩ | ⟨parameters, derives, rfl⟩
      · exact ⟨_, .empty htype hname hopening hclosing hblock, rfl⟩
      · refine ⟨⟨type, name, parameters, block⟩, ?_, ?_⟩
        · simpa using DerivesMethod.parameters htype hname hopening derives hblock
        · simp [AstMethod.toNode]

private theorem parseImport_sound : SoundParse parseImport fun tokens node =>
    ∃ name, DerivesImport tokens name ∧ node = inner .import [leaf .identifier name] := by
  refine parseAfter_sound (fun p => ((Builds.start p []).child parseIdentifier_sound _).expect _ _) ?_
  rintro keyword _ _ hkeyword ⟨_, closing, hclosing, rfl, _, _, _, _, rfl, rfl, ⟨name, hname, rfl, rfl⟩, rfl, rfl⟩
  exact ⟨name, .mk hkeyword hname hclosing, rfl⟩

/-- A program that is parsed without an error is derived. -/
theorem parseProgram_sound (p : Parser) (fine : (parseProgram n p).2.errors = []) :
    ∃ program, DerivesProgram True p.tokens program ∧ (parseProgram n p).1 = program.toNode := by
  have field : SoundParse (fun p => if peekField p then parseField n p else (none, p)) FieldNode := by
    intro p
    show Parses (if peekField p then parseField n p else (none, p)) p FieldNode
    split
    · exact parseField_sound n p
    · exact Parses.nothing
  have builds := parseMany_sound (parseMethod_sound n) n (parseMany_sound field n (parseMany_sound parseImport_sound n
    (Builds.start p [])))
  simp only [parseProgram] at fine ⊢
  split at fine
  · rename_i finished
    obtain ⟨start, tokens, split, _, methods, _, nodes, rfl, same, repeated, _, fields, _, nodes', rfl, rfl, repeated', _,
      imports, _, nodes'', rfl, rfl, repeated'', rfl, rfl⟩ := builds fine
    obtain ⟨defined, hmethods, rfl⟩ := repeated.items
    obtain ⟨declared, hfields, rfl⟩ := repeated'.items
    obtain ⟨names, himports, rfl⟩ := repeated''.items
    refine ⟨⟨names, declared, defined⟩, ?_, ?_⟩
    · rw [split, finished, List.append_nil]
      simpa using DerivesProgram.mk himports hfields hmethods
    · rw [same]
      rfl
  · simp at fine

end

end Roast
