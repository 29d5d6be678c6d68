import Roast.Systems.Regex
import Roast.Semantics.Ir

/-! The tokens and their patterns, `token.c`. -/
namespace Roast
open Systems

inductive TokenType where
  | whitespace
  | keywordBool | keywordBreak | keywordConst | keywordContinue | keywordElse | keywordFalse | keywordFor
  | keywordIf | keywordImport | keywordInt | keywordLen | keywordReturn | keywordTrue | keywordVoid | keywordWhile
  | hexLiteral | hexLiteralIncomplete | decimalLiteral
  | charLiteral | charLiteralEmpty | charLiteralInvalidChar | charLiteralInvalidLength | charLiteralUnterminated
  | stringLiteral | stringLiteralInvalidChar | stringLiteralUnterminated
  | identifier
  | lineComment | multilineComment | multilineCommentUnterminated
  | addAssign | subAssign | mulAssign | divAssign | modAssign | increment | decrement | equal | notEqual
  | lessEqual | greaterEqual | and | or
  | openParenthesis | closeParenthesis | openSquareBracket | closeSquareBracket | openCurlyBracket
  | closeCurlyBracket | assign | add | sub | mul | div | mod | less | greater | not | comma | semicolon
  | unknown
  deriving DecidableEq, Repr

namespace TokenType

/-- The types below `TOKEN_TYPE_COUNT`, in their order. -/
def all : List TokenType :=
  [whitespace, keywordBool, keywordBreak, keywordConst, keywordContinue, keywordElse, keywordFalse, keywordFor,
    keywordIf, keywordImport, keywordInt, keywordLen, keywordReturn, keywordTrue, keywordVoid, keywordWhile,
    hexLiteral, hexLiteralIncomplete, decimalLiteral, charLiteral, charLiteralEmpty, charLiteralInvalidChar,
    charLiteralInvalidLength, charLiteralUnterminated, stringLiteral, stringLiteralInvalidChar,
    stringLiteralUnterminated, identifier, lineComment, multilineComment, multilineCommentUnterminated,
    addAssign, subAssign, mulAssign, divAssign, modAssign, increment, decrement, equal, notEqual, lessEqual,
    greaterEqual, and, or, openParenthesis, closeParenthesis, openSquareBracket, closeSquareBracket,
    openCurlyBracket, closeCurlyBracket, assign, add, sub, mul, div, mod, less, greater, not, comma, semicolon]

def isIgnored : TokenType → Bool
  | whitespace | lineComment | multilineComment => true
  | _ => false

def errorMessage : TokenType → Option String
  | hexLiteralIncomplete => some "Incomplete hex literal"
  | charLiteralEmpty => some "Empty char literal"
  | charLiteralInvalidChar => some "Invalid character in char literal"
  | charLiteralInvalidLength => some "Invalid char literal length (must only contain 1 char)"
  | charLiteralUnterminated => some "Unterminated char literal"
  | stringLiteralInvalidChar => some "Invalid character in string literal"
  | stringLiteralUnterminated => some "Unterminated string literal"
  | multilineCommentUnterminated => some "Unterminated comment"
  | unknown => some "Unrecognized token"
  | _ => none

def isError (type : TokenType) : Bool := type.errorMessage.isSome

def keyword : TokenType → Option (List Char)
  | keywordBool => some "bool".toList
  | keywordBreak => some "break".toList
  | keywordConst => some "const".toList
  | keywordContinue => some "continue".toList
  | keywordElse => some "else".toList
  | keywordFalse => some "false".toList
  | keywordFor => some "for".toList
  | keywordIf => some "if".toList
  | keywordImport => some "import".toList
  | keywordInt => some "int".toList
  | keywordLen => some "len".toList
  | keywordReturn => some "return".toList
  | keywordTrue => some "true".toList
  | keywordVoid => some "void".toList
  | keywordWhile => some "while".toList
  | _ => none

def symbol : TokenType → Option (List Char)
  | addAssign => some "+=".toList
  | subAssign => some "-=".toList
  | mulAssign => some "*=".toList
  | divAssign => some "/=".toList
  | modAssign => some "%=".toList
  | increment => some "++".toList
  | decrement => some "--".toList
  | equal => some "==".toList
  | notEqual => some "!=".toList
  | lessEqual => some "<=".toList
  | greaterEqual => some ">=".toList
  | and => some "&&".toList
  | or => some "||".toList
  | openParenthesis => some "(".toList
  | closeParenthesis => some ")".toList
  | openSquareBracket => some "[".toList
  | closeSquareBracket => some "]".toList
  | openCurlyBracket => some "\x7b".toList
  | closeCurlyBracket => some "\x7d".toList
  | assign => some "=".toList
  | add => some "+".toList
  | sub => some "-".toList
  | mul => some "*".toList
  | div => some "/".toList
  | mod => some "%".toList
  | less => some "<".toList
  | greater => some ">".toList
  | not => some "!".toList
  | comma => some ",".toList
  | semicolon => some ";".toList
  | _ => none

end TokenType

def isSpace (character : Char) : Bool := character == ' ' || decide (CharacterBetween '\t' '\r' character)

def isLetter (character : Char) : Bool :=
  decide (CharacterBetween 'a' 'z' character) || decide (CharacterBetween 'A' 'Z' character) || character == '_'

def isDecimalDigit (character : Char) : Bool := decide (CharacterBetween '0' '9' character)

def isHexDigit (character : Char) : Bool :=
  isDecimalDigit character || decide (CharacterBetween 'a' 'f' character) || decide (CharacterBetween 'A' 'F' character)

/-- `[a-zA-Z0-9_]` and the `\w` of `\b` -/
def isWord (character : Char) : Bool := isLetter character || isDecimalDigit character

def isValidChar (character : Char) : Bool :=
  decide (CharacterBetween ' ' '!' character) || decide (CharacterBetween '#' '&' character) ||
    decide (CharacterBetween '(' '[' character) || decide (CharacterBetween ']' '~' character)

def validCharPattern : Regex :=
  .alternative (.character isValidChar)
    (.sequence (.character (· == '\\')) (.character fun character => character ∈ ['\'', '\"', '\\', 't', 'n']))

def extendedCharPattern : Regex :=
  .alternative (.character fun character =>
      decide (CharacterBetween ' ' '[' character) || decide (CharacterBetween ']' '~' character))
    (.sequence (.character (· == '\\')) (.character fun character => decide (CharacterBetween ' ' '~' character)))

def quoted (quote : Char) (body : Regex) : Regex :=
  .sequence (.character (· == quote)) (.sequence body (.character (· == quote)))

def wordPattern (word : List Char) : Regex := .sequence (.text word) (.boundary isWord)

section
variable (newline : Char → Bool)

/-- `REGEX_PATTERNS`; `newline` holds of the characters that `.` does not match. -/
def regexPattern (type : TokenType) : Regex :=
  match type with
  | .whitespace => .plus (.character isSpace)
  | .hexLiteral => .sequence (.text "0x".toList) (.plus (.character isHexDigit))
  | .hexLiteralIncomplete => .sequence (.text "0x".toList) (.boundary isWord)
  | .decimalLiteral => .plus (.character isDecimalDigit)
  | .charLiteral => quoted '\'' validCharPattern
  | .charLiteralEmpty => .text ['\'', '\'']
  | .charLiteralInvalidChar => quoted '\'' extendedCharPattern
  | .charLiteralInvalidLength => quoted '\'' (.lazy extendedCharPattern)
  | .charLiteralUnterminated => .sequence (.character (· == '\'')) (.greedy extendedCharPattern)
  | .stringLiteral => quoted '\"' (.lazy validCharPattern)
  | .stringLiteralInvalidChar => quoted '\"' (.lazy extendedCharPattern)
  | .stringLiteralUnterminated => .sequence (.character (· == '\"')) (.greedy extendedCharPattern)
  | .identifier => .sequence (.character isLetter) (.greedy (.character isWord))
  | .lineComment => .sequence (.text "//".toList) (.greedy (.character fun character => !newline character))
  | .multilineComment =>
    .sequence (.text "/*".toList) (.sequence (.lazy (.character fun _ => true)) (.text "*/".toList))
  | .multilineCommentUnterminated => .sequence (.text "/*".toList) (.greedy (.character fun _ => true))
  | type => (type.keyword.map wordPattern).getD (.text (type.symbol.getD []))

theorem regexPattern_keyword {type : TokenType} {word : List Char} (keyword : type.keyword = some word) :
    regexPattern newline type = wordPattern word := by
  cases type <;> cases keyword <;> rfl

theorem regexPattern_symbol {type : TokenType} {characters : List Char} (symbol : type.symbol = some characters) :
    regexPattern newline type = .text characters := by
  cases type <;> cases symbol <;> rfl

/-- All patterns begin with a character. -/
theorem regexPattern_leads {type : TokenType} (mem : type ∈ TokenType.all) : (regexPattern newline type).leads = true := by
  cases type <;> first | rfl | exact absurd mem (by decide)

end

inductive Initial where
  | space | letter | digit | quote | doubleQuote | other
  deriving DecidableEq

def initialOf (character : Char) : Initial :=
  if isSpace character then .space
  else if isLetter character then .letter
  else if isDecimalDigit character then .digit
  else if character = '\'' then .quote
  else if character = '\"' then .doubleQuote
  else .other

def TokenType.initial (type : TokenType) : Initial :=
  match type with
  | .whitespace => .space
  | .hexLiteral | .hexLiteralIncomplete | .decimalLiteral => .digit
  | .charLiteral | .charLiteralEmpty | .charLiteralInvalidChar | .charLiteralInvalidLength
  | .charLiteralUnterminated => .quote
  | .stringLiteral | .stringLiteralInvalidChar | .stringLiteralUnterminated => .doubleQuote
  | .identifier => .letter
  | type => if type.keyword.isSome then .letter else .other

private theorem isLetter_not_space {character : Char} (letter : isLetter character = true) :
    isSpace character = false := by
  simp only [isLetter, isSpace, Bool.or_eq_true, decide_eq_true_eq, beq_iff_eq, Bool.or_eq_false_iff,
    beq_eq_false_iff_ne, decide_eq_false_iff_not] at letter ⊢
  unfold CharacterBetween at letter ⊢
  constructor
  · rintro rfl
    revert letter
    decide
  · rintro ⟨low, high⟩
    have top : '\r'.toNat = 13 := rfl
    have bottom : 'a'.toNat = 97 := rfl
    have upper : 'A'.toNat = 65 := rfl
    rcases letter with (between | between) | rfl
    · omega
    · omega
    · revert high
      decide

private theorem isDecimalDigit_not_space {character : Char} (digit : isDecimalDigit character = true) :
    isSpace character = false ∧ isLetter character = false := by
  simp only [isDecimalDigit, isLetter, isSpace, decide_eq_true_eq, Bool.or_eq_false_iff, beq_eq_false_iff_ne,
    decide_eq_false_iff_not] at digit ⊢
  unfold CharacterBetween at digit ⊢
  have zero : '0'.toNat = 48 := rfl
  have nine : '9'.toNat = 57 := rfl
  have carriage : '\r'.toNat = 13 := rfl
  have lower : 'a'.toNat = 97 := rfl
  have upper : 'A'.toNat = 65 := rfl
  refine ⟨⟨?_, by omega⟩, ⟨by omega, by omega⟩, ?_⟩
  · rintro rfl
    revert digit
    decide
  · rintro rfl
    revert digit
    decide

/-- A lexeme begins with a character of its type's kind. -/
theorem regexPattern_initial {newline : Char → Bool} {type : TokenType} (mem : type ∈ TokenType.all) {character : Char}
    (begins : (regexPattern newline type).begins character = true) : initialOf character = type.initial := by
  cases type with
  | unknown => exact absurd mem (by decide)
  | whitespace =>
    have space : isSpace character = true := begins
    exact if_pos space
  | decimalLiteral =>
    have digit : isDecimalDigit character = true := begins
    obtain ⟨space, letter⟩ := isDecimalDigit_not_space digit
    simp [initialOf, space, letter, digit, TokenType.initial]
  | identifier =>
    have letter : isLetter character = true := begins
    simp [initialOf, isLetter_not_space letter, letter, TokenType.initial]
  | _ =>
    obtain rfl := beq_iff_eq.mp begins
    decide

end Roast
