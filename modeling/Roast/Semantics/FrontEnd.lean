import Roast.Semantics.Constructed
import Roast.Semantics.Source
import Roast.Systems.Lexemes

/-! The scanner, the parser and the construction give what the checker and everything behind it rely on. -/
namespace Roast
open Systems TokenType

private theorem isLetter_spec {character : Char} (letter : isLetter character = true) :
    ¬ character.isDigit ∧ (character.isAlphanum ∨ character = '_') := by
  simp only [isLetter, Bool.or_eq_true, decide_eq_true_eq, beq_iff_eq] at letter
  have codes : 'a'.toNat = 97 ∧ 'z'.toNat = 122 ∧ 'A'.toNat = 65 ∧ 'Z'.toNat = 90 ∧ '0'.toNat = 48 ∧ '9'.toNat = 57 := by
    decide
  obtain (between | between) | rfl := letter
  · unfold CharacterBetween at between
    refine ⟨fun digit => ?_, .inl ?_⟩
    · rw [Char.isDigit_iff_toNat] at digit
      omega
    · have lower : character.isLower = true := by
        unfold Char.isLower
        simp only [UInt32.le_iff_toNat_le, ge_iff_le, Bool.and_eq_true, decide_eq_true_eq]
        exact between
      unfold Char.isAlphanum Char.isAlpha
      rw [lower, Bool.or_true, Bool.true_or]
  · unfold CharacterBetween at between
    refine ⟨fun digit => ?_, .inl ?_⟩
    · rw [Char.isDigit_iff_toNat] at digit
      omega
    · have upper : character.isUpper = true := by
        unfold Char.isUpper
        simp only [UInt32.le_iff_toNat_le, ge_iff_le, decide_eq_true_eq]
        exact between
      unfold Char.isAlphanum Char.isAlpha
      rw [upper, Bool.true_or, Bool.true_or]
  · decide

private theorem isDecimalDigit_spec {character : Char} (digit : isDecimalDigit character = true) :
    character.isDigit = true := by
  simp only [isDecimalDigit, decide_eq_true_eq] at digit
  exact Char.isDigit_iff_toNat.mpr digit

private theorem isWord_spec {character : Char} (word : isWord character = true) :
    character.isAlphanum ∨ character = '_' := by
  obtain letter | digit := Bool.or_eq_true_iff.mp word
  · exact (isLetter_spec letter).2
  · left
    unfold Char.isAlphanum
    rw [isDecimalDigit_spec digit, Bool.or_true]

private theorem isValidChar_spec {character : Char} (valid : isValidChar character = true) :
    character ≠ '\\' ∧ character.toNat < 128 := by
  constructor
  · rintro rfl
    revert valid
    decide
  · simp only [isValidChar, Bool.or_eq_true, decide_eq_true_eq] at valid
    unfold CharacterBetween at valid
    have codes : '!'.toNat = 33 ∧ '&'.toNat = 38 ∧ '['.toNat = 91 ∧ '~'.toNat = 126 := by decide
    omega

structure Token.Lexed (source : List Char) (token : Token) : Prop where
  identifier : token.type = .identifier → IsIdentifier (tokenString source token)
  intLiteral : token.type ∈ INT_LITERALS → (intLiteralToken source token).WellFormed
  charLiteral : token.type = .charLiteral →
    ∃ character, charLiteralValue (tokenGetString source token) = some character ∧ character.toNat < 128

section
variable {newline : Char → Bool} {place stop : Place}

private theorem identifier_text (mem : stop ∈ (regexPattern newline .identifier).ends place) :
    ∃ text, IsIdentifier (String.ofList text) ∧ place.after = text ++ stop.after := by
  obtain ⟨head, text, letter, word, same⟩ := Regex.sequence_greedy_text isLetter mem
  obtain ⟨notDigit, first⟩ := isLetter_spec letter
  refine ⟨head :: text, ⟨by simp, by simpa using notDigit, ?_⟩, same⟩
  rw [String.toList_ofList]
  exact List.forall_mem_cons.mpr ⟨first, fun other mem => isWord_spec (word other mem)⟩

private theorem decimalLiteral_text (mem : stop ∈ (regexPattern newline .decimalLiteral).ends place) :
    ∃ text, IntLiteralToken.WellFormed ⟨false, text⟩ ∧ place.after = text ++ stop.after := by
  obtain ⟨head, text, first, digits, same⟩ := Regex.sequence_greedy_text isDecimalDigit mem
  refine ⟨head :: text, ⟨by simp, fun character mem => .inl ?_⟩, same⟩
  obtain rfl | mem := List.mem_cons.mp mem
  · exact isDecimalDigit_spec first
  · exact isDecimalDigit_spec (digits _ mem)

private theorem hexLiteral_text (mem : stop ∈ (regexPattern newline .hexLiteral).ends place) :
    ∃ text, IntLiteralToken.WellFormed ⟨true, text⟩ ∧ place.after = "0x".toList ++ text ++ stop.after := by
  obtain ⟨next, reached, mem⟩ := List.mem_flatMap.mp mem
  have start := Regex.text_text reached
  obtain ⟨head, text, first, digits, same⟩ := Regex.sequence_greedy_text isHexDigit mem
  have hex {character : Char} (digit : isHexDigit character = true) : character.isDigit ∨
      True ∧ (CharacterBetween 'a' 'f' character ∨ CharacterBetween 'A' 'F' character) := by
    simp only [isHexDigit, Bool.or_eq_true, decide_eq_true_eq] at digit
    obtain (decimal | small) | capital := digit
    · exact .inl (isDecimalDigit_spec decimal)
    · exact .inr ⟨trivial, .inl small⟩
    · exact .inr ⟨trivial, .inr capital⟩
  refine ⟨head :: text, ⟨by simp, fun character mem => ?_⟩, by rw [start, same, List.append_assoc]⟩
  obtain rfl | mem := List.mem_cons.mp mem
  · simpa using hex first
  · simpa using hex (digits _ mem)

private theorem charLiteral_text (mem : stop ∈ (regexPattern newline .charLiteral).ends place) :
    ∃ text character, charLiteralValue text = some character ∧ character.toNat < 128 ∧ place.after = text ++ stop.after := by
  obtain ⟨opened, opening, mem⟩ := List.mem_flatMap.mp mem
  obtain ⟨quote, -, after⟩ := Regex.character_text opening
  obtain ⟨closing, body, mem⟩ := List.mem_flatMap.mp mem
  obtain ⟨last, -, after'⟩ := Regex.character_text mem
  obtain plain | escaped := List.mem_append.mp body
  · obtain ⟨character, valid, same⟩ := Regex.character_text plain
    obtain ⟨other, small⟩ := isValidChar_spec valid
    exact ⟨[quote, character, last], character, by simp [charLiteralValue, other], small, by simp [after, same, after']⟩
  · obtain ⟨next, slash, escaped⟩ := List.mem_flatMap.mp escaped
    obtain ⟨backslash, isBackslash, same⟩ := Regex.character_text slash
    obtain ⟨character, escape, same'⟩ := Regex.character_text escaped
    obtain rfl : backslash = '\\' := by simpa using isBackslash
    have known : character ∈ ['\'', '\"', '\\', 't', 'n'] := of_decide_eq_true escape
    refine ⟨[quote, '\\', character, last], ?_⟩
    have text : place.after = [quote, '\\', character, last] ++ stop.after := by simp [after, same, same', after']
    simp only [List.mem_cons, List.not_mem_nil, or_false] at known
    obtain rfl | rfl | rfl | rfl | rfl := known
    · exact ⟨'\'', rfl, by decide, text⟩
    · exact ⟨'\"', rfl, by decide, text⟩
    · exact ⟨'\\', rfl, by decide, text⟩
    · exact ⟨'\t', rfl, by decide, text⟩
    · exact ⟨'\n', rfl, by decide, text⟩

theorem NextToken.lexed {source : List Char} {token : Token}
    (next : NextToken newline (source.drop token.offset) (token.type, token.length)) : token.Lexed source := by
  obtain ⟨type, offset, length⟩ := token
  dsimp only at next
  cases next with
  | unknown =>
    refine ⟨fun other => ?_, fun other => ?_, fun other => ?_⟩
    · cases other
    · exact absurd other (show TokenType.unknown ∉ INT_LITERALS by decide)
    · cases other
  | @matched _ stop found =>
    obtain ⟨-, reached⟩ := matchAt_mem found
    have string {text : List Char} (same : source.drop offset = text ++ stop.after) :
        tokenGetString source ⟨type, offset, (source.drop offset).length - stop.after.length⟩ = text := by
      rw [tokenGetString, same, List.length_append, Nat.add_sub_cancel, List.take_left]
    refine ⟨fun kind => ?_, fun kind => ?_, fun kind => ?_⟩
    · obtain rfl : type = .identifier := kind
      obtain ⟨text, identifier, same⟩ := identifier_text reached
      rw [tokenString, string same]
      exact identifier
    · simp only [INT_LITERALS, List.mem_cons, List.not_mem_nil, or_false] at kind
      obtain rfl | rfl := kind
      · obtain ⟨text, digits, same⟩ := hexLiteral_text reached
        rw [intLiteralToken, string same]
        exact digits
      · obtain ⟨text, digits, same⟩ := decimalLiteral_text reached
        rw [intLiteralToken, string same]
        exact digits
    · obtain rfl : type = .charLiteral := kind
      obtain ⟨text, character, value, small, same⟩ := charLiteral_text reached
      rw [string same]
      exact ⟨character, value, small⟩

/-- Each token takes a character at least. -/
private theorem tokenizeLoop_length {n : Nat} {source : List Char} (small : source.length < 2 ^ 32) {position : Nat}
    {result result' : Int}
    {tokens tokens' : List Token}
    (computed : tokenizeLoop newline n ⟨source, position⟩ result tokens = some (result', tokens')) :
    tokens'.length ≤ tokens.length + (source.length - position) := by
  induction n generalizing position result tokens with
  | zero => cases computed
  | succ n ih =>
    rw [tokenizeLoop] at computed
    by_cases done : source.drop position = []
    · rw [scannerNextToken, if_pos done] at computed
      rw [(Prod.mk.inj (Option.some.inj computed)).2]
      exact Nat.le_add_right _ _
    · obtain ⟨type, length, next, inside, step⟩ := scannerNextToken_next newline small done
      rw [step] at computed
      dsimp only at computed
      have positive := next.length.1
      split at computed
      · have shorter := ih computed
        omega
      · split at computed
        · have shorter := ih computed
          omega
        · have shorter := ih computed
          rw [List.length_append, List.length_singleton] at shorter
          omega

end

structure Scanned (source : List Char) (tokens : List Token) : Prop where
  lexed : ∀ token ∈ tokens, token.Lexed source
  few : tokens.length < 2 ^ 32

theorem scannerTokenize_length {newline : Char → Bool} {n : Nat} {source : List Char} {result : Int} {tokens : List Token}
    (scanned : scannerTokenize newline n source = some (result, some tokens)) : tokens.length ≤ source.length := by
  obtain ⟨result', loop⟩ := scannerTokenize_loop scanned
  have short := tokenizeLoop_length (tokenizeLoop_small loop (by decide)) loop
  rwa [List.length_nil, Nat.zero_add, Nat.sub_zero] at short

theorem scannerTokenize_scanned {newline : Char → Bool} {n : Nat} {source : List Char} (small : source.length < 2 ^ 32)
    {result : Int} {tokens : List Token} (scanned : scannerTokenize newline n source = some (result, some tokens)) :
    Scanned source tokens := by
  obtain ⟨result', loop⟩ := scannerTokenize_loop scanned
  exact ⟨fun token mem => (tokenizeLoop_next small loop (by simp) token mem).lexed,
    (scannerTokenize_length scanned).trans_lt small⟩

section
variable {source : List Char} {tokens : List Token}

theorem Scanned.part {part : List Token} (scanned : Scanned source tokens) (inside : part.Sublist tokens) :
    Scanned source part :=
  ⟨fun token mem => scanned.lexed token (inside.subset mem), inside.length_le.trans_lt scanned.few⟩

theorem Scanned.tail {token : Token} (scanned : Scanned source (token :: tokens)) : Scanned source tokens :=
  scanned.part (List.sublist_cons_self _ _)

theorem Scanned.first {rest : List Token} (scanned : Scanned source (tokens ++ rest)) : Scanned source tokens :=
  scanned.part (List.sublist_append_left _ _)

theorem Scanned.second {first : List Token} (scanned : Scanned source (first ++ tokens)) : Scanned source tokens :=
  scanned.part (List.sublist_append_right _ _)

private theorem AstLiteral.toIr_negate (literal : AstLiteral) :
    (literal.toIr source).negate = literal.negation.isSome := by
  unfold AstLiteral.toIr
  split <;> rfl

private theorem AstLiteral.toIr_fromSource {literal : AstLiteral}
    (kind : literal.value.type ∈ BOOL_LITERALS ++ INT_LITERALS ++ [charLiteral]) (lexed : literal.value.Lexed source) :
    (literal.toIr source).FromSource := by
  obtain ⟨negation, value⟩ := literal
  simp only [BOOL_LITERALS, INT_LITERALS, List.cons_append, List.nil_append, List.mem_cons, List.not_mem_nil,
    or_false] at kind
  have number (type : value.type ∈ INT_LITERALS) : (AstLiteral.toIr source ⟨negation, value⟩).FromSource := by
    have same : literalNodeType value.type = .intLiteral := by
      simp only [INT_LITERALS, List.mem_cons, List.not_mem_nil, or_false] at type
      obtain type | type := type
      · rw [type]
        rfl
      · rw [type]
        rfl
    rw [AstLiteral.toIr, same]
    exact ⟨_, rfl, lexed.intLiteral type, rfl⟩
  obtain type | type | type | type | type := kind
  · rw [AstLiteral.toIr, type]
    exact ⟨rfl, .inr rfl⟩
  · rw [AstLiteral.toIr, type]
    exact ⟨rfl, .inl rfl⟩
  · exact number (by simp [type, INT_LITERALS])
  · exact number (by simp [type, INT_LITERALS])
  · obtain ⟨character, value', small⟩ := lexed.charLiteral type
    rw [AstLiteral.toIr, type]
    refine ⟨rfl, ?_⟩
    dsimp only [literalNodeType]
    rw [value', Option.getD_some, BitVec.toNat_ofNat]
    exact (Nat.mod_le _ _).trans_lt small

end

mutual

theorem DerivesUnary.all {source : List Char} {tokens : List Token} {expression : AstExpression} :
    DerivesUnary tokens expression → Scanned source tokens → ∀ allocated,
      (expression.toIr source allocated).1.All sourceRules
  | .len _ _ _ _, _, _ => by
    rw [AstExpression.toIr, IrExpression.All]
    trivial
  | .not _ operand, scanned, allocated => by
    rw [AstExpression.toIr, IrExpression.All]
    exact operand.all scanned.tail allocated
  | .negate _ operand _, scanned, allocated => by
    rw [AstExpression.toIr, IrExpression.All]
    exact operand.all scanned.tail allocated
  | .literal kind, scanned, _ => by
    rw [AstExpression.toIr, IrExpression.All]
    refine ⟨AstLiteral.toIr_fromSource kind (scanned.lexed _ (by simp)), fun negated => ?_⟩
    rw [AstLiteral.toIr_negate] at negated
    cases negated
  | .negatedLiteral _ kind, scanned, _ => by
    rw [AstExpression.toIr, IrExpression.All]
    refine ⟨AstLiteral.toIr_fromSource (List.mem_append_left _ (List.mem_append_right _ kind))
      (scanned.lexed _ (by simp)), fun _ => ?_⟩
    simp only [INT_LITERALS, List.mem_cons, List.not_mem_nil, or_false] at kind
    obtain type | type := kind
    · rw [AstLiteral.toIr, type]
      rfl
    · rw [AstLiteral.toIr, type]
      rfl
  | .call _ _ _, _, _ => by
    rw [AstExpression.toIr, AstArguments.toIr, IrExpression.All, IrArguments.All]
    trivial
  | .callWith _ _ operands, scanned, allocated => by
    rw [AstExpression.toIr, IrExpression.All]
    exact operands.all scanned.tail.tail allocated
  | .scalar _, _, _ => by
    rw [AstExpression.toIr, IrExpression.All, IrLocation.All]
    trivial
  | .element _ _ operand _, scanned, allocated => by
    rw [AstExpression.toIr, IrExpression.All, IrLocation.All]
    exact operand.all scanned.tail.tail.first (allocated + 1)
  | .parenthesis _ operand _, scanned, allocated =>
    operand.all scanned.tail.first allocated

theorem DerivesBinary.all {source : List Char} {level : Nat} {tokens : List Token} {expression : AstExpression} :
    DerivesBinary level tokens expression → Scanned source tokens → ∀ allocated,
      (expression.toIr source allocated).1.All sourceRules
  | .unary operand, scanned, allocated => operand.all scanned allocated
  | .binary _ _ left right, scanned, allocated => by
    rw [AstExpression.toIr, IrExpression.All]
    exact ⟨left.all scanned.first allocated, right.all scanned.second.tail _⟩

theorem DerivesArguments.all {source : List Char} {tokens : List Token} {arguments : AstArguments} :
    DerivesArguments tokens arguments → Scanned source tokens → ∀ allocated,
      (arguments.toIr source allocated).1.All sourceRules
  | .lastString _ _, _, _ => by
    rw [AstArguments.toIr, AstArguments.toIr, IrArguments.All, IrArguments.All]
    trivial
  | .lastExpression operand _, scanned, allocated => by
    rw [AstArguments.toIr, AstArguments.toIr, IrArguments.All, IrArguments.All]
    exact ⟨operand.all scanned.first allocated, trivial⟩
  | .string _ _ operands, scanned, allocated => by
    rw [AstArguments.toIr, IrArguments.All]
    exact operands.all scanned.tail.tail allocated
  | .expression operand _ operands, scanned, allocated => by
    rw [AstArguments.toIr, IrArguments.All]
    exact ⟨operand.all scanned.first allocated, operands.all scanned.second.tail _⟩

end

/-- The parts of a list. -/
theorem Separated.mem_part {α : Type} {language : List Token → α → Prop} {close : TokenType} {tokens : List Token}
    {items : List α} (separated : Separated language close tokens items) :
    (∀ item ∈ items, ∃ part, part.Sublist tokens ∧ language part item) ∧ items ≠ [] ∧ items.length ≤ tokens.length := by
  induction separated with
  | last mem hclosing =>
    refine ⟨fun item inside => ?_, by simp, by simp⟩
    rw [List.mem_singleton.mp inside]
    exact ⟨_, List.sublist_append_left _ _, mem⟩
  | cons mem hseparator others ih =>
    obtain ⟨parts, -, short⟩ := ih
    refine ⟨fun item inside => ?_, by simp, ?_⟩
    · obtain rfl | inside := List.mem_cons.mp inside
      · exact ⟨_, List.sublist_append_left _ _, mem⟩
      · obtain ⟨part, sublist, derives⟩ := parts item inside
        exact ⟨part, sublist.trans ((List.sublist_cons_self _ _).trans (List.sublist_append_right _ _)), derives⟩
    · rw [List.length_append, List.length_cons, List.length_cons]
      omega

theorem Repeated.mem_part {α : Type} {language : List Token → α → Prop} {tokens : List Token} {items : List α}
    (repeated : Repeated language tokens items) : ∀ item ∈ items, ∃ part, part.Sublist tokens ∧ language part item := by
  induction repeated with
  | nil =>
    intro item inside
    cases inside
  | cons mem others ih =>
    intro item inside
    obtain rfl | inside := List.mem_cons.mp inside
    · exact ⟨_, List.sublist_append_left _ _, mem⟩
    · obtain ⟨part, sublist, derives⟩ := ih item inside
      exact ⟨part, sublist.trans (List.sublist_append_right _ _), derives⟩

theorem mem_listToIr {α β : Type} {toIr : α → Nat → β × Nat} {items : List α} {allocated : Nat} {built : β}
    (mem : built ∈ (listToIr toIr items allocated).1) : ∃ item ∈ items, ∃ n, built = (toIr item n).1 := by
  induction items generalizing allocated with
  | nil => cases mem
  | cons item items ih =>
    rw [listToIr] at mem
    obtain rfl | mem := List.mem_cons.mp mem
    · exact ⟨item, List.mem_cons_self .., allocated, rfl⟩
    · obtain ⟨other, inside, n, same⟩ := ih mem
      exact ⟨other, List.mem_cons_of_mem _ inside, n, same⟩

section
variable {source : List Char} {tokens : List Token}

theorem DerivesLocation.all {location : AstLocation} (derives : DerivesLocation tokens location)
    (scanned : Scanned source tokens) (allocated : Nat) : (location.toIr source allocated).1.All sourceRules := by
  cases derives with
  | scalar hname => trivial
  | element hname hopening operand hclosing =>
    exact operand.all scanned.tail.tail.first (allocated + 1)

theorem DerivesCall.all {call : AstCall} (derives : DerivesCall tokens call) (scanned : Scanned source tokens)
    (allocated : Nat) : (call.toIr source allocated).1.2.All sourceRules := by
  cases derives with
  | empty hname hopening hclosing =>
    rw [AstCall.toIr, AstArguments.toIr, IrArguments.All]
    trivial
  | arguments hname hopening operands =>
    exact operands.all scanned.tail.tail allocated

theorem DerivesAssignment.all {assignment : AstAssignment} (derives : DerivesAssignment tokens assignment)
    (scanned : Scanned source tokens) (allocated : Nat) : (assignment.toIr source allocated).1.All sourceRules := by
  cases derives with
  | assign hlocation hoperator hexpression =>
    refine ⟨hlocation.all scanned.first allocated, fun expression same => ?_⟩
    obtain rfl := Option.some.inj same
    exact hexpression.all scanned.second.tail _
  | increment hlocation hoperator =>
    exact ⟨hlocation.all scanned.first allocated, fun _ same => by cases same⟩

theorem DerivesForUpdate.all {update : AstForUpdate} (derives : DerivesForUpdate tokens update)
    (scanned : Scanned source tokens) (allocated : Nat) : (update.toIr source allocated).1.All sourceRules := by
  cases derives with
  | methodCall hcall => exact hcall.all scanned allocated
  | assignment hassignment => exact hassignment.all scanned allocated

private theorem irDataType_types {type : TokenType} (htype : type ∈ TYPES) :
    (irDataType type = .int ∨ irDataType type = .bool) ∧ (irDataType type).isArray = false := by
  simp only [TYPES, List.mem_cons, List.not_mem_nil, or_false] at htype
  obtain rfl | rfl := htype
  · exact ⟨.inl rfl, rfl⟩
  · exact ⟨.inr rfl, rfl⟩

theorem DerivesLiteral.fromSource {literal : AstLiteral} (derives : DerivesLiteral tokens literal)
    (scanned : Scanned source tokens) : (literal.toIr source).FromSource := by
  cases derives with
  | plain kind => exact AstLiteral.toIr_fromSource kind (scanned.lexed _ (by simp))
  | negated sign kind => exact AstLiteral.toIr_fromSource kind (scanned.lexed _ (by simp))

theorem DerivesInitializer.fromSource {initializer : AstInitializer} (derives : DerivesInitializer tokens initializer)
    (scanned : Scanned source tokens) :
    (∀ literal ∈ (initializer.toIr source).literals, literal.FromSource) ∧ (initializer.toIr source).literals ≠ [] ∧
      (initializer.toIr source).literals.length < 2 ^ 32 ∧
      ((initializer.toIr source).array = false → (initializer.toIr source).literals.length = 1) := by
  cases derives with
  | scalar hliteral =>
    refine ⟨fun literal mem => ?_, List.cons_ne_nil _ _, ?_, fun _ => rfl⟩
    · rw [List.mem_singleton.mp mem]
      exact hliteral.fromSource scanned
    · change 1 < 2 ^ 32
      decide
  | array hopening hliterals =>
    obtain ⟨parts, nonempty, short⟩ := hliterals.mem_part
    have inner := scanned.tail
    refine ⟨fun literal mem => ?_, fun empty => nonempty (List.map_eq_nil_iff.mp empty), ?_, fun scalar => by cases scalar⟩
    · obtain ⟨item, inside, rfl⟩ := List.mem_map.mp mem
      obtain ⟨part, sublist, derives⟩ := parts item inside
      exact derives.fromSource (inner.part sublist)
    · change (List.map _ _).length < 2 ^ 32
      rw [List.length_map]
      exact short.trans_lt inner.few

/-- A declared name, with what stands behind it. -/
private theorem declarator_fromSource {name : Token} {part : List Token} {length : AstLength}
    {initializer : Option AstInitializer}
    (hname : name.Lexed source) (isName : name.type = .identifier) (hlength : DerivesLength part length)
    (lengths : ∀ token ∈ part, token.Lexed source)
    (hinitializer : ∀ given ∈ initializer, ∃ part, DerivesInitializer part given ∧ Scanned source part)
    {constant : Bool} {type : IrDataType} (htype : type = .int ∨ type = .bool) (allocated : Nat) :
    (AstDeclarator.toIr source constant type ⟨name, length, initializer⟩ allocated).1.FromSource := by
  have literals : ∀ built ∈ initializer.map (AstInitializer.toIr source), (∀ literal ∈ built.literals, literal.FromSource) ∧
      built.literals ≠ [] ∧ built.literals.length < 2 ^ 32 ∧ (built.array = false → built.literals.length = 1) := by
    intro built mem
    obtain ⟨given, inside, rfl⟩ := Option.mem_map.mp mem
    obtain ⟨part, derives, scanned⟩ := hinitializer given inside
    exact derives.fromSource scanned
  have element : type.element = type ∧ type.array.element = type ∧ type.isArray = false ∧ type.array.isArray = true := by
    obtain rfl | rfl := htype
    · decide
    · decide
  obtain ⟨same, ofArray, scalar, isArray⟩ := element
  refine ⟨hname.identifier isName, ?_, ?_, ?_, ?_, fun built mem => (literals built mem).1,
    fun built mem => (literals built mem).2⟩
  · cases hlength with
    | none => exact same.symm ▸ htype
    | empty | literal => exact ofArray.symm ▸ htype
  · cases hlength with
    | none => exact fun _ => ⟨rfl, rfl⟩
    | empty | literal => exact fun other => by cases isArray.symm.trans other
  · cases hlength with
    | none => exact fun other => by cases scalar.symm.trans other
    | empty | literal => exact fun _ => rfl
  · cases hlength with
    | none | empty =>
      intro token mem
      cases mem
    | literal hopening hlength hclosing =>
      intro token mem
      obtain rfl := Option.some.inj mem
      exact (lengths _ (by simp)).intLiteral hlength

theorem DerivesDeclarator.fromSource {declarator : AstDeclarator} (derives : DerivesDeclarator tokens declarator)
    (scanned : Scanned source tokens) {constant : Bool} {type : IrDataType} (htype : type = .int ∨ type = .bool)
    (allocated : Nat) : (declarator.toIr source constant type allocated).1.FromSource := by
  cases derives with
  | plain hname hlength =>
    exact declarator_fromSource (scanned.lexed _ (by simp)) hname hlength
      (fun token mem => scanned.lexed token (List.mem_cons_of_mem _ mem)) (fun _ given => by cases given) htype allocated
  | initialized hname hlength hequals hinitializer =>
    refine declarator_fromSource (scanned.lexed _ (by simp)) hname hlength
      (fun token mem => scanned.lexed token (by simp [mem])) (fun given same => ?_) htype allocated
    obtain rfl := Option.some.inj same
    exact ⟨_, hinitializer, scanned.tail.second.tail⟩

theorem DerivesField.fromSource {field : AstField} (derives : DerivesField tokens field) (scanned : Scanned source tokens)
    (allocated : Nat) : ∀ built ∈ (field.toIr source allocated).1, built.FromSource := by
  intro built mem
  obtain ⟨declarator, inside, n, rfl⟩ := mem_listToIr mem
  cases derives with
  | ordinary htype hdeclarators =>
    obtain ⟨part, sublist, derives⟩ := hdeclarators.mem_part.1 declarator inside
    exact derives.fromSource (scanned.part (sublist.cons _)) (irDataType_types htype).1 n
  | constant hkeyword htype hdeclarators =>
    obtain ⟨part, sublist, derives⟩ := hdeclarators.mem_part.1 declarator inside
    exact derives.fromSource (scanned.part ((sublist.cons _).cons _)) (irDataType_types htype).1 n

private theorem fieldsToIr_fromSource {fields : List AstField} (derives : Repeated DerivesField tokens fields)
    (scanned : Scanned source tokens) (allocated : Nat) :
    ∀ built ∈ (fieldsToIr source fields allocated).1, built.FromSource := by
  intro built mem
  obtain ⟨group, grouped, inside⟩ := List.mem_flatten.mp mem
  obtain ⟨field, declared, n, rfl⟩ := mem_listToIr grouped
  obtain ⟨part, sublist, derives⟩ := derives.mem_part field declared
  exact derives.fromSource (scanned.part sublist) n built inside

private theorem IrStatements.all_ofList {r : Rules} {statements : List IrStatement}
    (all : ∀ statement ∈ statements, statement.All r) : (IrStatements.ofList statements).All r := by
  induction statements with
  | nil => trivial
  | cons statement rest ih =>
    rw [IrStatements.ofList, IrStatements.All]
    exact ⟨all statement (List.mem_cons_self ..), ih fun other mem => all other (List.mem_cons_of_mem _ mem)⟩

theorem DerivesCondition.all {keyword : TokenType} {condition : AstExpression}
    (derives : DerivesCondition keyword tokens condition) (scanned : Scanned source tokens) (allocated : Nat) :
    (condition.toIr source allocated).1.All sourceRules := by
  cases derives with
  | mk hfirst hopening hcondition hclosing =>
    exact hcondition.all scanned.tail.tail.first allocated

end

mutual

theorem DerivesStatement.all {source : List Char} {tokens : List Token} {statement : AstStatement} :
    DerivesStatement tokens statement → Scanned source tokens → ∀ allocated,
      (statement.toIr source allocated).1.All sourceRules
  | .assignment hassignment _, scanned, allocated => by
    rw [AstStatement.toIr, IrStatement.All]
    exact hassignment.all scanned.first allocated
  | .methodCall hcall _, scanned, allocated => by
    rw [AstStatement.toIr, IrStatement.All]
    exact hcall.all scanned.first allocated
  | .ifStatement hcondition hblock, scanned, allocated => by
    rw [AstStatement.toIr, IrStatement.All]
    exact ⟨hcondition.all scanned.first allocated, hblock.all scanned.second _⟩
  | .ifElseStatement hcondition hblock _ helse, scanned, allocated => by
    rw [AstStatement.toIr, IrStatement.All]
    have rest := scanned.second
    exact ⟨hcondition.all scanned.first allocated, hblock.all rest.first _, helse.all rest.second.tail _⟩
  | .forStatement hfor hblock, scanned, allocated => by
    rw [AstStatement.toIr, IrStatement.All]
    have body := scanned.second
    replace scanned := scanned.first
    cases hfor with
    | mk hkeyword hopening hname hequals hinitial hfirst hcondition hsecond hupdate hclosing =>
      have header := scanned.tail.tail.tail.tail
      have rest := header.second.tail
      refine ⟨⟨trivial, fun expression same => ?_⟩, hcondition.all rest.first _, hupdate.all rest.second.tail.first _,
        hblock.all body _⟩
      obtain rfl := Option.some.inj same
      exact hinitial.all header.first allocated
  | .whileStatement hcondition hblock, scanned, allocated => by
    rw [AstStatement.toIr, IrStatement.All]
    exact ⟨hcondition.all scanned.first allocated, hblock.all scanned.second _⟩
  | .returnStatement _ _, _, _ => by
    rw [AstStatement.toIr, IrStatement.All]
    exact fun _ same => by cases same
  | .returnExpression _ hexpression _, scanned, allocated => by
    rw [AstStatement.toIr, IrStatement.All]
    intro value same
    obtain rfl := Option.some.inj same
    exact hexpression.all scanned.tail.first allocated
  | .breakStatement _ _, _, _ => by
    rw [AstStatement.toIr, IrStatement.All]
    trivial
  | .continueStatement _ _, _, _ => by
    rw [AstStatement.toIr, IrStatement.All]
    trivial

theorem DerivesBlock.all {source : List Char} {tokens : List Token} {block : AstBlock} :
    DerivesBlock tokens block → Scanned source tokens → ∀ allocated, (block.toIr source allocated).1.All sourceRules
  | .mk _ hfields hstatements _, scanned, allocated => by
    rw [AstBlock.toIr, IrBlock.All]
    have inner := scanned.tail
    refine ⟨fieldsToIr_fromSource hfields inner.first allocated, IrStatements.all_ofList ?_⟩
    have rest := inner.second
    exact hstatements.all rest.first _

theorem DerivesStatements.all {source : List Char} {tokens : List Token} {statements : AstStatements} :
    DerivesStatements tokens statements → Scanned source tokens → ∀ allocated,
      ∀ statement ∈ (statements.toIr source allocated).1, statement.All sourceRules
  | .nil, _, _ => by
    rw [AstStatements.toIr]
    intro statement mem
    cases mem
  | .cons hstatement hstatements, scanned, allocated => by
    rw [AstStatements.toIr]
    exact List.forall_mem_cons.mpr ⟨hstatement.all scanned.first allocated, hstatements.all scanned.second _⟩

end

section
variable {source : List Char} {tokens : List Token} {missing : Prop}

private theorem DerivesParameters.mem_tokens {parameters : List AstParameter}
    (derives : DerivesParameters missing tokens parameters) : ∀ parameter ∈ parameters, parameter.type.type ∈ TYPES ∧
      parameter.identifier.type = .identifier ∧ parameter.identifier ∈ tokens := by
  induction derives with
  | last htype hname hclosing =>
    intro parameter mem
    rw [List.mem_singleton.mp mem]
    exact ⟨htype, hname, by simp⟩
  | comma htype hname hseparator others ih =>
    intro parameter mem
    obtain rfl | mem := List.mem_cons.mp mem
    · exact ⟨htype, hname, by simp⟩
    · obtain ⟨type, name, inside⟩ := ih parameter mem
      exact ⟨type, name, by simp [inside]⟩
  | missing hmissing htype hname others ih =>
    intro parameter mem
    obtain rfl | mem := List.mem_cons.mp mem
    · exact ⟨htype, hname, by simp⟩
    · obtain ⟨type, name, inside⟩ := ih parameter mem
      exact ⟨type, name, by simp [inside]⟩

/-- The parts of a method. -/
theorem DerivesMethod.parts {method : AstMethod} (derives : DerivesMethod missing tokens method) :
    method.type.type ∈ keywordVoid :: TYPES ∧ method.identifier.type = .identifier ∧ method.identifier ∈ tokens ∧
      (∀ parameter ∈ method.parameters, parameter.type.type ∈ TYPES ∧ parameter.identifier.type = .identifier ∧
        parameter.identifier ∈ tokens) ∧
      ∃ part, part.Sublist tokens ∧ DerivesBlock part method.block := by
  cases derives with
  | empty htype hname hopening hclosing hblock =>
    refine ⟨htype, hname, by simp, fun parameter mem => ?_, _, ?_, hblock⟩
    · cases mem
    · exact (((List.sublist_cons_self _ _).cons _).cons _).cons _
  | parameters htype hname hopening hparameters hblock =>
    refine ⟨htype, hname, by simp, fun parameter mem => ?_, _, ?_, hblock⟩
    · obtain ⟨type, name, inside⟩ := hparameters.mem_tokens parameter mem
      exact ⟨type, name, by simp [inside]⟩
    · exact (((List.sublist_append_right _ _).cons _).cons _).cons _

private theorem AstParameter.toIr_fromSource {parameter : AstParameter} (htype : parameter.type.type ∈ TYPES)
    (lexed : parameter.identifier.Lexed source) (hname : parameter.identifier.type = .identifier) (allocated : Nat) :
    (parameter.toIr source allocated).1.FromSource := by
  obtain ⟨types, scalar⟩ := irDataType_types htype
  refine ⟨lexed.identifier hname, ?_, fun _ => ⟨rfl, rfl⟩, fun array => ?_, nofun, nofun, nofun⟩
  · change (irDataType _).element = .int ∨ (irDataType _).element = .bool
    obtain type | type := types
    · rw [type]
      exact .inl rfl
    · rw [type]
      exact .inr rfl
  · cases scalar.symm.trans array

/-- The representation of a derived program is one that comes from source text. -/
theorem DerivesProgram.fromSource {program : AstProgram} (derives : DerivesProgram missing tokens program)
    (scanned : Scanned source tokens) : (program.toIr source).FromSource := by
  cases derives with
  | @mk imports fields methods names declared defined himports hfields hmethods =>
    have declares := fieldsToIr_fromSource hfields scanned.second.first 0
    have defines := scanned.second.second
    have method : ∀ built ∈ (AstProgram.toIr source ⟨names, declared, defined⟩).methods, ∃ item ∈ defined, ∃ n,
        built = (AstMethod.toIr source item n).1 := fun built mem => mem_listToIr mem
    have parts {item : AstMethod} (inside : item ∈ defined) :
        ∃ part, part.Sublist methods ∧ DerivesMethod missing part item := hmethods.mem_part item inside
    refine ⟨⟨fun built mem => ?_, fun built mem => ?_⟩, ⟨declares, fun built mem => ?_⟩, fun name mem => ?_,
      fun built mem => ?_, fun built mem => ?_, fun built mem field inside => ?_⟩
    · obtain ⟨token, -, rfl⟩ := List.mem_map.mp mem
      rfl
    · obtain ⟨item, -, n, rfl⟩ := method built mem
      rfl
    · obtain ⟨item, inside, n, rfl⟩ := method built mem
      obtain ⟨part, sublist, derives⟩ := parts inside
      obtain ⟨-, -, -, parameters, body, sublist', block⟩ := derives.parts
      have own := defines.part sublist
      refine ⟨fun field mem => ?_, block.all (own.part sublist') _⟩
      obtain ⟨parameter, given, k, rfl⟩ := mem_listToIr mem
      obtain ⟨type, name, here⟩ := parameters parameter given
      exact AstParameter.toIr_fromSource type (own.lexed _ here) name k
    · simp only [IrProgram.names, List.mem_append, List.mem_map] at mem
      obtain (⟨built, mem, rfl⟩ | ⟨built, mem, rfl⟩) | ⟨built, mem, rfl⟩ := mem
      · obtain ⟨token, inside, rfl⟩ := List.mem_map.mp mem
        obtain ⟨part, sublist, derives⟩ := himports.mem_part token inside
        cases derives with
        | mk hkeyword hname hclosing =>
          have own := scanned.first.part sublist
          exact (own.lexed token (by simp)).identifier hname
      · exact (declares built mem).identifier
      · obtain ⟨item, inside, n, rfl⟩ := method built mem
        obtain ⟨part, sublist, derives⟩ := parts inside
        obtain ⟨-, hname, here, -⟩ := derives.parts
        exact ((defines.part sublist).lexed _ here).identifier hname
    · obtain ⟨token, -, rfl⟩ := List.mem_map.mp mem
      exact ⟨rfl, rfl⟩
    · obtain ⟨item, inside, n, rfl⟩ := method built mem
      obtain ⟨part, sublist, derives⟩ := parts inside
      obtain void | type := List.mem_cons.mp derives.parts.1
      · change (irDataType _).isArray = false
        rw [void]
        rfl
      · exact (irDataType_types type).2
    · obtain ⟨item, listed, n, rfl⟩ := method built mem
      obtain ⟨part, sublist, derives⟩ := parts listed
      obtain ⟨-, -, -, parameters, -⟩ := derives.parts
      obtain ⟨parameter, given, k, rfl⟩ := mem_listToIr inside
      exact ⟨(irDataType_types (parameters parameter given).1).2, rfl, rfl⟩

end

/-- Of every source text of less than 2^32 characters that the scanner and the parser accept, the construction reads the
whole linear form of the tree and gives a program with the shape that the checker and the generator rely on. -/
theorem irProgramNew_fromSource {newline : Char → Bool} {k n : Nat} {source : List Char} (small : source.length < 2 ^ 32)
    {tokens : List Token} {ast : AstNode} (scanned : scannerTokenize newline k source = some (0, some tokens))
    (parsed : parserParse n tokens = (0, some ast)) : ∃ program : IrProgram, program.FromSource ∧
      ∀ m, (linearizeAst ast).length ≤ m →
        irProgramNew source m (linearizeAst ast) = some (program, [⟨.programEnd, none⟩]) := by
  obtain ⟨program, derives, rfl⟩ := parserParse_program parsed
  exact ⟨program.toIr source, derives.fromSource (scannerTokenize_scanned small scanned), fun m bound =>
    derives.takes (scannerTokenize_hasCharacters scanned) m bound⟩

/-- `const int a = -0x1F;` -/
def negatedHex : AstProgram where
  imports := []
  fields := [⟨true, ⟨.keywordInt, 6, 3⟩,
    [⟨⟨.identifier, 10, 1⟩, .none, some (.scalar ⟨some ⟨.sub, 14, 1⟩, ⟨.hexLiteral, 15, 4⟩⟩)⟩]⟩]
  methods := []

theorem irProgramNew_fromSource_negatedHex : ∃ program : IrProgram, program.FromSource ∧
    irProgramNew "const int a = -0x1F;".toList 11 (linearizeAst negatedHex.toNode) =
      some (program, [⟨.programEnd, none⟩]) := by
  have scanned : scannerTokenize (· == '\n') 21 "const int a = -0x1F;".toList = some (0, some [⟨.keywordConst, 0, 5⟩,
      ⟨.keywordInt, 6, 3⟩, ⟨.identifier, 10, 1⟩, ⟨.assign, 12, 1⟩, ⟨.sub, 14, 1⟩, ⟨.hexLiteral, 15, 4⟩,
      ⟨.semicolon, 19, 1⟩]) := by decide +kernel
  have parsed : parserParse 20 [⟨.keywordConst, 0, 5⟩, ⟨.keywordInt, 6, 3⟩, ⟨.identifier, 10, 1⟩, ⟨.assign, 12, 1⟩,
      ⟨.sub, 14, 1⟩, ⟨.hexLiteral, 15, 4⟩, ⟨.semicolon, 19, 1⟩] = (0, some negatedHex.toNode) := rfl
  obtain ⟨program, source, built⟩ := irProgramNew_fromSource (by decide) scanned parsed
  exact ⟨program, source, built 11 (by decide)⟩

end Roast
