import Roast.Parser.Programs
import Roast.Parser.Unambiguous
import Roast.Semantics.RoundTrip

/-! The construction on what the scanner and the parser give: the characters of scanned literals, and that the linear
form of a parsed program is read back as the program it came from. -/
namespace Roast
open Systems

section
variable {newline : Char → Bool}

/-- The text of a character literal. -/
private theorem charLiteral_lexeme {place stop : Place}
    (reached : stop ∈ (regexPattern newline .charLiteral).ends place) :
    (∃ character, character ≠ '\\' ∧ place.after = '\'' :: character :: '\'' :: stop.after) ∨
      ∃ character ∈ ['\'', '\"', '\\', 't', 'n'], place.after = '\'' :: '\\' :: character :: '\'' :: stop.after := by
  have character : ∀ {accepts : Char → Bool} {place stop : Place}, stop ∈ (Regex.character accepts).ends place →
      ∃ first, accepts first = true ∧ place.after = first :: stop.after := by
    intro accepts place stop mem
    unfold Regex.ends at mem
    split at mem
    · cases mem
    · rename_i first rest after
      split at mem
      · rename_i accepted
        rw [List.mem_singleton.mp mem]
        exact ⟨first, accepted, after⟩
      · cases mem
  have sequence : ∀ {first second : Regex} {place stop : Place}, stop ∈ (Regex.sequence first second).ends place →
      ∃ middle ∈ first.ends place, stop ∈ second.ends middle := by
    intro first second place stop mem
    exact List.mem_flatMap.mp mem
  obtain ⟨opened, mem, reached⟩ := sequence reached
  obtain ⟨opening, quote, after⟩ := character mem
  obtain ⟨closing, body, mem⟩ := sequence reached
  obtain ⟨last, quote', after'⟩ := character mem
  have quotes : opening = '\'' ∧ last = '\'' := ⟨by simpa using quote, by simpa using quote'⟩
  rcases List.mem_append.mp body with plain | escaped
  · obtain ⟨first, valid, text⟩ := character plain
    refine .inl ⟨first, ?_, by rw [after, text, after', quotes.1, quotes.2]⟩
    rintro rfl
    revert valid
    decide
  · obtain ⟨slash, mem, escaped⟩ := sequence escaped
    obtain ⟨backslash, same, text⟩ := character mem
    obtain ⟨first, valid, text'⟩ := character escaped
    have same : backslash = '\\' := by simpa using same
    exact .inr ⟨first, of_decide_eq_true valid, by rw [after, text, text', after', quotes.1, quotes.2, same]⟩

theorem NextToken.charLiteralValue {source : List Char} {length : Nat}
    (next : NextToken newline source (.charLiteral, length)) :
    (Roast.charLiteralValue (source.take length)).isSome = true := by
  cases next with
  | @matched _ stop found =>
    obtain ⟨_, reached⟩ := matchAt_mem found
    rcases charLiteral_lexeme reached with ⟨character, plain, after⟩ | ⟨character, escape, after⟩
    · have count : stop.after.length + 1 + 1 + 1 - stop.after.length = 3 := by omega
      dsimp only at after
      rw [after]
      simp [Roast.charLiteralValue, plain, count]
    · have count : stop.after.length + 1 + 1 + 1 + 1 - stop.after.length = 4 := by omega
      dsimp only at after
      rw [after]
      simp only [List.mem_cons, List.not_mem_nil, or_false] at escape
      rcases escape with rfl | rfl | rfl | rfl | rfl <;> simp [Roast.charLiteralValue, handleBackslashSequence, count]

/-- Each token that is handed out is the next one at its offset. -/
theorem tokenizeLoop_next {n : Nat} {source : List Char} (small : source.length < 2 ^ 32) {position : Nat}
    {result result' : Int} {tokens tokens' : List Token} (computed : tokenizeLoop newline n ⟨source, position⟩ result tokens = some (result', tokens'))
    (known : ∀ token ∈ tokens, NextToken newline (source.drop token.offset) (token.type, token.length)) :
    ∀ token ∈ tokens', NextToken newline (source.drop token.offset) (token.type, token.length) := by
  induction n generalizing position result tokens with
  | zero => cases computed
  | succ n ih =>
    rw [tokenizeLoop] at computed
    by_cases done : source.drop position = []
    · rw [scannerNextToken, if_pos done] at computed
      rwa [← (Prod.mk.inj (Option.some.inj computed)).2]
    · obtain ⟨type, length, next, -, step⟩ := scannerNextToken_next newline small done
      rw [step] at computed
      dsimp only at computed
      split at computed
      · exact ih computed known
      · split at computed
        · exact ih computed known
        · refine ih computed fun token mem => ?_
          rcases List.mem_append.mp mem with mem | mem
          · exact known token mem
          · rw [List.mem_singleton.mp mem]
            exact next

theorem scannerTokenize_loop {n : Nat} {source : List Char} {result : Int} {tokens : List Token}
    (scanned : scannerTokenize newline n source = some (result, some tokens)) :
    ∃ result', tokenizeLoop newline n ⟨source, 0⟩ 0 [] = some (result', tokens) := by
  obtain ⟨⟨result', tokens'⟩, loop, same⟩ := Option.map_eq_some_iff.mp scanned
  dsimp only at same
  split at same
  · obtain rfl : tokens' = tokens := Option.some.inj (Prod.mk.inj same).2
    exact ⟨result', loop⟩
  · cases (Prod.mk.inj same).2

theorem scannerTokenize_hasCharacters {n : Nat} {source : List Char} {result : Int} {tokens : List Token}
    (scanned : scannerTokenize newline n source = some (result, some tokens)) : HasCharacters source tokens := by
  obtain ⟨result', loop⟩ := scannerTokenize_loop scanned
  intro token mem literal
  have next := tokenizeLoop_next (tokenizeLoop_small loop (by decide)) loop (by simp) token mem
  rw [literal] at next
  exact next.charLiteralValue

end

theorem parserParse_program {n : Nat} {tokens : List Token} {ast : AstNode} (parsed : parserParse n tokens = (0, some ast)) :
    ∃ program, DerivesProgram True tokens program ∧ ast = program.toNode := by
  rw [parserParse] at parsed
  split at parsed
  · cases parsed
  · dsimp only at parsed
    split at parsed
    · rename_i fine
      obtain ⟨program, derives, node⟩ := parseProgram_sound n ⟨tokens, []⟩ fine
      refine ⟨program, derives, ?_⟩
      rw [← Option.some.inj (Prod.mk.inj parsed).2, node]
    · cases parsed

/-- Building the representation from the linear form of a parsed program reads every node up to the last one and gives
the representation of the program's tree, and no other parsed program has the same linear form. -/
theorem irProgramNew_linearizeAst {newline : Char → Bool} {k n : Nat} {source : List Char} {tokens : List Token}
    {ast : AstNode} (scanned : scannerTokenize newline k source = some (0, some tokens))
    (parsed : parserParse n tokens = (0, some ast)) :
    (∃ program : AstProgram, ast = program.toNode ∧ ∀ m, (linearizeAst ast).length ≤ m →
      irProgramNew source m (linearizeAst ast) = some (program.toIr source, [⟨.programEnd, none⟩])) ∧
    ∀ n' tokens' other, parserParse n' tokens' = (0, some other) → linearizeAst ast = linearizeAst other → ast = other := by
  obtain ⟨program, derives, rfl⟩ := parserParse_program parsed
  refine ⟨⟨program, rfl, fun m bound => derives.takes (scannerTokenize_hasCharacters scanned) m bound⟩, ?_⟩
  intro n' tokens' other parsed' same
  obtain ⟨program', -, rfl⟩ := parserParse_program parsed'
  exact AstProgram.linearizeAst_injective same

/-- Fields with initializers, a parameter, and statements with their optional parts. -/
def statementsText : List Char :=
  ("import p;int g=1,a[]=\x7b1,2\x7d;int f(int x)\x7bbool y;" ++
    "if(y)\x7bp(\"s\");\x7delse\x7breturn-a[x];\x7dfor(x=0;y;x++)\x7b\x7dreturn x;\x7d").toList

def statementsTokens : List Token :=
  [⟨.keywordImport, 0, 6⟩, ⟨.identifier, 7, 1⟩, ⟨.semicolon, 8, 1⟩, ⟨.keywordInt, 9, 3⟩, ⟨.identifier, 13, 1⟩,
    ⟨.assign, 14, 1⟩, ⟨.decimalLiteral, 15, 1⟩, ⟨.comma, 16, 1⟩, ⟨.identifier, 17, 1⟩, ⟨.openSquareBracket, 18, 1⟩,
    ⟨.closeSquareBracket, 19, 1⟩, ⟨.assign, 20, 1⟩, ⟨.openCurlyBracket, 21, 1⟩, ⟨.decimalLiteral, 22, 1⟩,
    ⟨.comma, 23, 1⟩, ⟨.decimalLiteral, 24, 1⟩, ⟨.closeCurlyBracket, 25, 1⟩, ⟨.semicolon, 26, 1⟩, ⟨.keywordInt, 27, 3⟩,
    ⟨.identifier, 31, 1⟩, ⟨.openParenthesis, 32, 1⟩, ⟨.keywordInt, 33, 3⟩, ⟨.identifier, 37, 1⟩,
    ⟨.closeParenthesis, 38, 1⟩, ⟨.openCurlyBracket, 39, 1⟩, ⟨.keywordBool, 40, 4⟩, ⟨.identifier, 45, 1⟩,
    ⟨.semicolon, 46, 1⟩, ⟨.keywordIf, 47, 2⟩, ⟨.openParenthesis, 49, 1⟩, ⟨.identifier, 50, 1⟩,
    ⟨.closeParenthesis, 51, 1⟩, ⟨.openCurlyBracket, 52, 1⟩, ⟨.identifier, 53, 1⟩, ⟨.openParenthesis, 54, 1⟩,
    ⟨.stringLiteral, 55, 3⟩, ⟨.closeParenthesis, 58, 1⟩, ⟨.semicolon, 59, 1⟩, ⟨.closeCurlyBracket, 60, 1⟩,
    ⟨.keywordElse, 61, 4⟩, ⟨.openCurlyBracket, 65, 1⟩, ⟨.keywordReturn, 66, 6⟩, ⟨.sub, 72, 1⟩, ⟨.identifier, 73, 1⟩,
    ⟨.openSquareBracket, 74, 1⟩, ⟨.identifier, 75, 1⟩, ⟨.closeSquareBracket, 76, 1⟩, ⟨.semicolon, 77, 1⟩,
    ⟨.closeCurlyBracket, 78, 1⟩, ⟨.keywordFor, 79, 3⟩, ⟨.openParenthesis, 82, 1⟩, ⟨.identifier, 83, 1⟩,
    ⟨.assign, 84, 1⟩, ⟨.decimalLiteral, 85, 1⟩, ⟨.semicolon, 86, 1⟩, ⟨.identifier, 87, 1⟩, ⟨.semicolon, 88, 1⟩,
    ⟨.identifier, 89, 1⟩, ⟨.increment, 90, 2⟩, ⟨.closeParenthesis, 92, 1⟩, ⟨.openCurlyBracket, 93, 1⟩,
    ⟨.closeCurlyBracket, 94, 1⟩, ⟨.keywordReturn, 95, 6⟩, ⟨.identifier, 102, 1⟩, ⟨.semicolon, 103, 1⟩,
    ⟨.closeCurlyBracket, 104, 1⟩]

def statementsAst : AstNode := (parserParse 60 statementsTokens).2.getD (.inner .program [])

private theorem statementsTokens_parsed : parserParse 60 statementsTokens = (0, some statementsAst) := by
  have accepted : (parserParse 60 statementsTokens).1 = 0 := by decide +kernel
  have built : (parserParse 60 statementsTokens).2.isSome := by decide +kernel
  obtain ⟨ast, some⟩ := Option.isSome_iff_exists.mp built
  refine Prod.ext accepted ?_
  rw [statementsAst, some]
  rfl

/-- Two fields and a method are read, and nothing is left but the end of the program. -/
theorem irProgramNew_linearizeAst_statements : ∃ program : AstProgram, statementsAst = program.toNode ∧
    (program.toIr statementsText).fields.length = 2 ∧ (program.toIr statementsText).methods.length = 1 ∧
    irProgramNew statementsText 80 (linearizeAst statementsAst) =
      some (program.toIr statementsText, [⟨.programEnd, none⟩]) := by
  have scanned : scannerTokenize (· == '\n') 106 statementsText = some (0, some statementsTokens) := by decide +kernel
  obtain ⟨program, same, built⟩ := (irProgramNew_linearizeAst scanned statementsTokens_parsed).1
  have read := built 80 (by decide +kernel)
  have counts : (irProgramNew statementsText 80 (linearizeAst statementsAst)).map
      (fun result => (result.1.fields.length, result.1.methods.length)) = some (2, 1) := by decide +kernel
  rw [read] at counts
  obtain ⟨fields, methods⟩ := Prod.mk.inj (Option.some.inj counts)
  exact ⟨program, same, fields, methods, read⟩

end Roast
