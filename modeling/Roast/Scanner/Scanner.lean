import Roast.Scanner.Token

/-! The scanner, `scanner.c`: one ordered alternation of all patterns, searched from the current position. A
source is the list of its characters, without the NUL that ends it. -/
namespace Roast
open Systems

structure Token where
  type : TokenType
  offset : Nat
  length : Nat
  deriving DecidableEq, Repr

structure Scanner where
  source : List Char
  position : Nat

section
variable (newline : Char → Bool)

/-- The merged pattern at a place: the group that is set is that of the first pattern with a match. -/
def matchAt (place : Place) : Option (TokenType × Place) :=
  TokenType.all.findSome? fun type => ((regexPattern newline type).ends place).head?.map fun stop => (type, stop)

/-- `g_regex_match` with the merged pattern: the leftmost match, and where it begins. -/
def regexMatch (start : Nat) (before : Option Char) (source : List Char) : Option (Nat × TokenType × Place) :=
  match matchAt newline ⟨before, source⟩ with
  | some found => some (start, found)
  | none =>
    match source with
    | [] => none
    | first :: rest => regexMatch (start + 1) (some first) rest

/-- `match_token` on the rest of the source: the type and the length of the next token, which is a `uint32_t`. -/
def matchToken (source : List Char) : TokenType × Nat :=
  match regexMatch newline 0 none source with
  | none => (.unknown, source.length % 2 ^ 32)
  | some (start, type, stop) => if start ≠ 0 then (.unknown, start) else (type, source.length - stop.after.length)

def scannerStart (source : List Char) : Scanner := ⟨source, 0⟩

def scannerNextToken (scanner : Scanner) : Option (Token × Scanner) :=
  if scanner.source.drop scanner.position = [] then none
  else
    let token := matchToken newline (scanner.source.drop scanner.position)
    some (⟨token.1, scanner.position, token.2⟩, { scanner with position := (scanner.position + token.2) % 2 ^ 32 })

def tokenizeLoop : Nat → Scanner → Int → List Token → Option (Int × List Token)
  | 0, _, _, _ => none
  | n + 1, scanner, result, tokens =>
    match scannerNextToken newline scanner with
    | none => some (result, tokens)
    | some (token, scanner) =>
      if token.type.isIgnored then tokenizeLoop n scanner result tokens
      else if token.type.isError then tokenizeLoop n scanner (-1) tokens
      else tokenizeLoop n scanner result (tokens ++ [token])

def scannerTokenize (n : Nat) (source : List Char) : Option (Int × Option (List Token)) :=
  (tokenizeLoop newline n (scannerStart source) 0 []).map fun loop =>
    (loop.1, if loop.1 = 0 then some loop.2 else none)

/-- The tokens of successive calls of `scanner_next_token`, at most `n - 1`. -/
def scannerSpans : Nat → Scanner → Option (List Token)
  | 0, _ => none
  | n + 1, scanner =>
    match scannerNextToken newline scanner with
    | none => some []
    | some (token, scanner) => (scannerSpans n scanner).map (token :: ·)

def placeAt (source : List Char) (offset : Nat) : Place := ⟨(source.take offset).getLast?, source.drop offset⟩

def IsLexeme (type : TokenType) (place : Place) (lexeme : List Char) : Prop :=
  ∃ stop ∈ (regexPattern newline type).ends place, place.after = lexeme ++ stop.after

def TokenType.Ordinary (type : TokenType) : Prop :=
  type ∈ TokenType.all ∧ type.isError = false ∧ type ≠ .lineComment ∧ type ≠ .multilineComment

instance (type : TokenType) : Decidable type.Ordinary := by
  unfold TokenType.Ordinary
  infer_instance

/-- The longest text at a place that matches the pattern of one of the types. -/
def IsLongestLexeme (types : TokenType → Prop) (place : Place) (lexeme : List Char) : Prop :=
  (∃ type, types type ∧ IsLexeme newline type place lexeme) ∧
    ∀ type other, types type → IsLexeme newline type place other → other.length ≤ lexeme.length

end

private theorem single_validChar : validCharPattern.Single :=
  Regex.single_alternative (Regex.single_character _)
    (Regex.single_sequence (Regex.single_character _) (Regex.single_character _)) rfl fun head valid => by
      by_contra escape
      obtain rfl : head = '\\' := by simpa [Regex.begins] using escape
      revert valid
      decide

private theorem single_quoted (quote : Char) {body : Regex} (single : body.Single) : (quoted quote body).Single :=
  Regex.single_sequence (Regex.single_character _) (Regex.single_sequence single (Regex.single_character _))

private theorem single_word (word : List Char) : (wordPattern word).Single :=
  Regex.single_sequence (Regex.single_text word) (Regex.single_boundary _)

section
variable {newline : Char → Bool}

/-- The first match of an ordinary pattern is its longest one. -/
private theorem regexPattern_longestFirst {type : TokenType} (ordinary : type.Ordinary) :
    (regexPattern newline type).LongestFirst := by
  cases type with
  | whitespace => exact Regex.longestFirst_plus_character _
  | decimalLiteral => exact Regex.longestFirst_plus_character _
  | hexLiteral => exact Regex.longestFirst_sequence (Regex.single_text _) (Regex.longestFirst_plus_character _)
  | identifier => exact Regex.longestFirst_sequence (Regex.single_character _) (Regex.longestFirst_greedy_character _)
  | charLiteral => exact (single_quoted _ single_validChar).longestFirst
  | stringLiteral =>
    exact (Regex.single_sequence (Regex.single_character _)
      (Regex.single_lazy_close rfl (by decide) single_validChar)).longestFirst
  | _ =>
    first
    | exact absurd ordinary (by decide)
    | exact (single_word _).longestFirst
    | exact (Regex.single_text _).longestFirst

private theorem isLetter_isWord {character : Char} (letter : isLetter character = true) : isWord character = true := by
  rw [isWord, letter, Bool.true_or]

/-- A keyword is matched when it is the whole word. -/
private theorem wordPattern_ends {word : List Char} (nonempty : word ≠ []) (letters : word.all isWord = true)
    {place stop : Place}
    (mem : stop ∈ (wordPattern word).ends place) :
    place.after.takeWhile isWord = word ∧ stop.after = place.after.dropWhile isWord := by
  obtain ⟨next, reached, bounded⟩ := List.mem_flatMap.mp mem
  rw [Regex.text_ends] at reached
  split at reached
  · rename_i prefixed
    obtain ⟨rest, after⟩ := prefixed
    rw [List.mem_singleton] at reached
    subst reached
    have last : word.getLast?.or place.before = some (word.getLast nonempty) := by
      rw [List.getLast?_eq_some_getLast nonempty, Option.some_or]
    have inside : isWord (word.getLast nonempty) = true :=
      List.all_eq_true.mp letters _ (List.getLast_mem nonempty)
    rw [Regex.ends, last, ← after, List.drop_left] at bounded
    dsimp only at bounded
    split at bounded
    · cases bounded
    · rename_i different
      rw [List.mem_singleton.mp bounded, ← after]
      have outside : rest.takeWhile isWord = [] := by
        cases rest with
        | nil => rfl
        | cons head tail =>
          have no : isWord head = false := by simpa [inside] using different
          rw [List.takeWhile_cons_of_neg (by simp [no])]
      have drop : rest.dropWhile isWord = rest := by
        cases rest with
        | nil => rfl
        | cons head tail =>
          have no : isWord head = false := by simpa [inside] using different
          rw [List.dropWhile_cons_of_neg (by simp [no])]
      rw [List.takeWhile_append_of_pos (List.all_eq_true.mp letters), List.dropWhile_append_of_pos (List.all_eq_true.mp letters),
        outside, drop, List.append_nil]
      exact ⟨rfl, rfl⟩
  · cases reached

/-- A keyword matches a whole word. -/
private theorem wordPattern_matches {word : List Char} (nonempty : word ≠ []) (letters : word.all isWord = true)
    {place : Place}
    (whole : place.after.takeWhile isWord = word) : (wordPattern word).ends place ≠ [] := by
  have split : word ++ place.after.dropWhile isWord = place.after := by
    rw [← whole, List.takeWhile_append_dropWhile]
  have inside : isWord (word.getLast nonempty) = true := List.all_eq_true.mp letters _ (List.getLast_mem nonempty)
  have next : (place.after.dropWhile isWord).head?.any isWord = false := by
    cases rest : place.after.dropWhile isWord with
    | nil => rfl
    | cons head tail =>
      have no := List.head?_dropWhile_not isWord place.after
      rw [rest] at no
      simpa using no
  rw [wordPattern, Regex.ends, Regex.text_ends, if_pos ⟨_, split⟩, List.flatMap_singleton, Regex.ends]
  have drop : place.after.drop word.length = place.after.dropWhile isWord := by
    conv_lhs => rw [← split]
    exact List.drop_left
  dsimp only
  rw [List.getLast?_eq_some_getLast nonempty, Option.some_or, drop, next, if_neg (by simp [inside])]
  exact List.cons_ne_nil _ _

/-- The matches of an identifier lie inside a word. -/
private theorem identifier_ends {place stop : Place} (mem : stop ∈ (regexPattern newline .identifier).ends place) :
    (place.after.dropWhile isWord).length ≤ stop.after.length := by
  obtain ⟨next, reached, mem⟩ := List.mem_flatMap.mp mem
  rw [Regex.ends] at reached
  split at reached
  · cases reached
  · rename_i first rest after
    split at reached
    · rename_i letter
      rw [List.mem_singleton.mp reached] at mem
      rw [after, List.dropWhile_cons_of_pos (isLetter_isWord letter)]
      exact (Regex.greedy_character isWord ⟨some first, rest⟩).2 stop mem
    · cases reached

/-- The first match of an identifier is the whole word. -/
private theorem identifier_first {place stop : Place}
    (head : ((regexPattern newline .identifier).ends place).head? = some stop) :
    stop.after = place.after.dropWhile isWord := by
  have ends : (regexPattern newline .identifier).ends place =
      ((Regex.character isLetter).ends place).flatMap (Regex.greedy (.character isWord)).ends := rfl
  rw [ends, Regex.ends] at head
  split at head
  · cases head
  · rename_i first rest after
    split at head
    · rename_i letter
      rw [List.flatMap_singleton] at head
      obtain ⟨whole, first', same⟩ := (Regex.greedy_character isWord ⟨some first, rest⟩).1
      rw [head] at first'
      rw [Option.some.inj first', same, after, List.dropWhile_cons_of_pos (isLetter_isWord letter)]
    · cases head

end

section
variable {newline : Char → Bool} {place stop : Place} {type : TokenType}

private theorem matchAt_eq_none : matchAt newline place = none ↔
    ∀ type ∈ TokenType.all, (regexPattern newline type).ends place = [] := by
  unfold matchAt
  rw [List.findSome?_eq_none_iff]
  refine forall₂_congr fun type _ => ?_
  rw [Option.map_eq_none_iff, List.head?_eq_none_iff]

/-- The first pattern with a match is chosen. -/
private theorem matchAt_some (found : matchAt newline place = some (type, stop)) :
    ((regexPattern newline type).ends place).head? = some stop ∧
      ∃ earlier later, TokenType.all = earlier ++ type :: later ∧
        ∀ other ∈ earlier, (regexPattern newline other).ends place = [] := by
  obtain ⟨earlier, chosen, later, split, matched, unmatched⟩ := List.findSome?_eq_some_iff.mp found
  obtain ⟨head, first, same⟩ := Option.map_eq_some_iff.mp matched
  obtain ⟨rfl, rfl⟩ := Prod.mk.inj same
  refine ⟨first, earlier, later, split, fun other mem => ?_⟩
  have none := unmatched other mem
  rwa [Option.map_eq_none_iff, List.head?_eq_none_iff] at none

theorem matchAt_mem (found : matchAt newline place = some (type, stop)) :
    type ∈ TokenType.all ∧ stop ∈ (regexPattern newline type).ends place := by
  obtain ⟨head, earlier, later, split, -⟩ := matchAt_some found
  exact ⟨by simp [split], List.mem_of_mem_head? head⟩

/-- What comes before a place does not matter. -/
private theorem matchAt_before (before before' : Option Char) (after : List Char) :
    matchAt newline ⟨before, after⟩ = matchAt newline ⟨before', after⟩ := by
  have same (types : List TokenType) (known : ∀ type ∈ types, type ∈ TokenType.all) :
      (types.findSome? fun type => ((regexPattern newline type).ends ⟨before, after⟩).head?.map (Prod.mk type)) =
        types.findSome? fun type => ((regexPattern newline type).ends ⟨before', after⟩).head?.map (Prod.mk type) := by
    induction types with
    | nil => rfl
    | cons type rest ih =>
      rw [List.forall_mem_cons] at known
      rw [List.findSome?_cons, List.findSome?_cons, ih known.2,
        Regex.ends_before (regexPattern_leads newline known.1) before before']
  exact same _ fun _ mem => mem

/-- A token is not empty. -/
private theorem matchAt_consumes (found : matchAt newline place = some (type, stop)) :
    stop.after <:+ place.after ∧ stop.after.length < place.after.length := by
  obtain ⟨mem, reached⟩ := matchAt_mem found
  obtain ⟨first, rest, after, -, suffix⟩ := Regex.ends_begins (regexPattern_leads newline mem) reached
  rw [after]
  exact ⟨suffix.trans (List.suffix_cons first rest), by simpa [Nat.lt_succ_iff] using suffix.length_le⟩

private theorem keyword_word {word : List Char} (keyword : type.keyword = some word) :
    word ≠ [] ∧ word.all isWord = true ∧ type ∈ TokenType.all := by
  cases type <;> cases keyword <;> decide

private theorem keyword_inj {other : TokenType} {word : List Char} (keyword : type.keyword = some word)
    (keyword' : other.keyword = some word) : type = other := by
  cases type <;> cases keyword <;> cases other <;> first | rfl | exact absurd keyword' (by decide)

/-- The types of the tokens that begin with a letter. -/
private theorem initial_letter (mem : type ∈ TokenType.all) (letter : type.initial = .letter) :
    type = .identifier ∨ ∃ word, type.keyword = some word := by
  cases type <;> first | exact .inl rfl | exact .inr ⟨_, rfl⟩ | exact absurd letter (by decide)

/-- A match with a letter takes the whole word, and no other pattern takes more. -/
private theorem letter_longest (mem : type ∈ TokenType.all) (letter : type.initial = .letter) :
    (∀ stop, ((regexPattern newline type).ends place).head? = some stop → stop.after = place.after.dropWhile isWord) ∧
      ∀ other ∈ (regexPattern newline type).ends place,
        (place.after.dropWhile isWord).length ≤ other.after.length := by
  rcases initial_letter mem letter with rfl | ⟨word, keyword⟩
  · exact ⟨fun stop => identifier_first, fun other => identifier_ends⟩
  · obtain ⟨nonempty, letters, -⟩ := keyword_word keyword
    rw [regexPattern_keyword newline keyword]
    exact ⟨fun stop head => (wordPattern_ends nonempty letters (List.mem_of_mem_head? head)).2,
      fun other mem => (wordPattern_ends nonempty letters mem).2 ▸ le_rfl⟩

def Precedes (type later : TokenType) : Prop :=
  type.Ordinary → later.Ordinary → type.initial = later.initial →
    type.initial = .letter ∨ type = .hexLiteral ∧ later = .decimalLiteral ∨
      ∃ characters ∈ type.symbol, ∃ characters' ∈ later.symbol, ¬ characters <+: characters'

instance (type later : TokenType) : Decidable (Precedes type later) := by
  unfold Precedes
  infer_instance

private theorem all_precedes : TokenType.all.Pairwise Precedes := by decide +kernel

/-- A hexadecimal literal reaches at least as far as a decimal one. -/
private theorem hexLiteral_before_decimal (head : ((regexPattern newline .hexLiteral).ends place).head? = some stop)
    {other : Place} (mem : other ∈ (regexPattern newline .decimalLiteral).ends place) :
    stop.after.length ≤ other.after.length := by
  have reached := List.mem_of_mem_head? head
  obtain ⟨next, prefixed, reached⟩ := List.mem_flatMap.mp reached
  rw [Regex.text_ends] at prefixed
  split at prefixed
  · rename_i hex
    obtain ⟨rest, after⟩ := hex
    obtain ⟨zero, one, more⟩ := List.mem_flatMap.mp mem
    have shorter : stop.after.length ≤ place.after.length - 2 := by
      have suffix := (Regex.ends_suffix _ next stop reached).length_le
      rw [List.mem_singleton.mp prefixed, List.length_drop] at suffix
      exact suffix
    have atZero : zero.after = 'x' :: rest := by
      rw [Regex.ends, ← after] at one
      have first : zero ∈ [(⟨some '0', 'x' :: rest⟩ : Place)] := one
      rw [List.mem_singleton.mp first]
    have longer := (Regex.greedy_character isDecimalDigit zero).2 other more
    rw [atZero, List.dropWhile_cons_of_neg (by decide), List.length_cons] at longer
    rw [← after] at shorter
    simp only [List.length_append] at shorter
    have two : "0x".toList.length = 2 := rfl
    omega
  · cases prefixed

/-- A symbol that is no prefix of the other one reaches at least as far. -/
private theorem symbol_longest {other : TokenType} {characters characters' : List Char}
    (symbol : type.symbol = some characters)
    (symbol' : other.symbol = some characters') (unextended : ¬ characters <+: characters')
    (mem : stop ∈ (regexPattern newline type).ends place) {stop' : Place}
    (mem' : stop' ∈ (regexPattern newline other).ends place) : stop.after.length ≤ stop'.after.length := by
  rw [regexPattern_symbol newline symbol, Regex.text_ends] at mem
  rw [regexPattern_symbol newline symbol', Regex.text_ends] at mem'
  split at mem
  · rename_i first
    split at mem'
    · rename_i second
      rw [List.mem_singleton.mp mem, List.mem_singleton.mp mem', List.length_drop, List.length_drop]
      rcases List.prefix_or_prefix_of_prefix first second with shorter | shorter
      · exact absurd shorter unextended
      · have := shorter.length_le
        omega
    · cases mem'
  · cases mem

/-- No ordinary pattern matches more than an ordinary token takes. -/
private theorem matchAt_longest (found : matchAt newline place = some (type, stop)) (ordinary : type.Ordinary)
    {other : TokenType} (ordinary' : other.Ordinary) {stop' : Place}
    (mem' : stop' ∈ (regexPattern newline other).ends place) : stop.after.length ≤ stop'.after.length := by
  obtain ⟨head, earlier, later, split, unmatched⟩ := matchAt_some found
  have mem := List.mem_of_mem_head? head
  have listed : other ∈ earlier ++ type :: later := split ▸ ordinary'.1
  rcases List.mem_append.mp listed with before | after
  · rw [unmatched other before] at mem'
    cases mem'
  rcases List.mem_cons.mp after with rfl | after
  · exact regexPattern_longestFirst ordinary place stop head stop' mem'
  -- a later pattern: it begins with the same character
  have pairwise := all_precedes
  rw [split, List.pairwise_append] at pairwise
  have precedes : Precedes type other := (List.pairwise_cons.mp pairwise.2.1).1 other after
  obtain ⟨first, rest, here, begins, -⟩ := Regex.ends_begins (regexPattern_leads newline ordinary.1) mem
  obtain ⟨first', rest', here', begins', -⟩ := Regex.ends_begins (regexPattern_leads newline ordinary'.1) mem'
  obtain rfl : first = first' := (List.cons.inj (here.symm.trans here')).1
  have initial : type.initial = other.initial :=
    (regexPattern_initial ordinary.1 begins).symm.trans (regexPattern_initial ordinary'.1 begins')
  rcases precedes ordinary ordinary' initial with letter | ⟨rfl, rfl⟩ | ⟨characters, symbol, characters', symbol', longer⟩
  · rw [(letter_longest ordinary.1 letter).1 stop head]
    exact (letter_longest ordinary'.1 (initial ▸ letter)).2 stop' mem'
  · exact hexLiteral_before_decimal head mem'
  · exact symbol_longest symbol symbol' longer mem mem'

/-- Keywords come before identifiers. -/
private theorem keyword_before_identifier {earlier later : List TokenType}
    (split : TokenType.all = earlier ++ .identifier :: later)
    {word : List Char} (keyword : type.keyword = some word) : type ∈ earlier := by
  have order : TokenType.all.Pairwise fun first second => first = .identifier → second.keyword = none := by
    decide +kernel
  have listed : type ∈ earlier ++ .identifier :: later := split ▸ (keyword_word keyword).2.2
  rcases List.mem_append.mp listed with before | after
  · exact before
  · rcases List.mem_cons.mp after with rfl | after
    · cases keyword
    · rw [split, List.pairwise_append] at order
      have none := (List.pairwise_cons.mp order.2.1).1 type after rfl
      rw [none] at keyword
      cases keyword

/-- A keyword is chosen exactly when it is the whole word. -/
private theorem matchAt_keyword {word : List Char} (keyword : type.keyword = some word) :
    (∃ stop, matchAt newline place = some (type, stop)) ↔ place.after.takeWhile isWord = word := by
  obtain ⟨nonempty, letters, listed⟩ := keyword_word keyword
  constructor
  · rintro ⟨stop, found⟩
    have reached := (matchAt_mem found).2
    rw [regexPattern_keyword newline keyword] at reached
    exact (wordPattern_ends nonempty letters reached).1
  · intro whole
    have possible : (regexPattern newline type).ends place ≠ [] := by
      rw [regexPattern_keyword newline keyword]
      exact wordPattern_matches nonempty letters whole
    cases found : matchAt newline place with
    | none => exact absurd (matchAt_eq_none.mp found type listed) possible
    | some result =>
      obtain ⟨chosen, stop⟩ := result
      obtain ⟨head, earlier, later, split, unmatched⟩ := matchAt_some found
      obtain ⟨mem, reached⟩ := matchAt_mem found
      obtain ⟨stop', reached'⟩ := List.exists_mem_of_ne_nil _ possible
      obtain ⟨first, rest, here, begins, -⟩ := Regex.ends_begins (regexPattern_leads newline mem) reached
      obtain ⟨first', rest', here', begins', -⟩ := Regex.ends_begins (regexPattern_leads newline listed) reached'
      obtain rfl : first = first' := (List.cons.inj (here.symm.trans here')).1
      have letter : chosen.initial = .letter := by
        rw [← regexPattern_initial mem begins, regexPattern_initial listed begins']
        cases type <;> cases keyword <;> rfl
      rcases initial_letter mem letter with rfl | ⟨other, keyword'⟩
      · exact absurd (unmatched type (keyword_before_identifier split keyword)) possible
      · obtain ⟨nonempty', letters', -⟩ := keyword_word keyword'
        rw [regexPattern_keyword newline keyword'] at reached
        have same : other = word := (wordPattern_ends nonempty' letters' reached).1.symm.trans whole
        rw [keyword_inj keyword (same ▸ keyword')]
        exact ⟨stop, rfl⟩

end

section
variable {newline : Char → Bool}

/-- The search finds the leftmost match. -/
private theorem regexMatch_leftmost (newline : Char → Bool) (start : Nat) (before : Option Char) (source : List Char) :
    match regexMatch newline start before source with
    | none => ∀ skipped ≤ source.length, matchAt newline ⟨none, source.drop skipped⟩ = none
    | some (found, result) => ∃ skipped, found = start + skipped ∧
        matchAt newline ⟨none, source.drop skipped⟩ = some result ∧
        ∀ earlier < skipped, matchAt newline ⟨none, source.drop earlier⟩ = none := by
  induction source generalizing start before with
  | nil =>
    unfold regexMatch
    cases found : matchAt newline ⟨before, []⟩ with
    | none =>
      intro skipped _
      rw [List.drop_nil, ← found]
      exact matchAt_before ..
    | some result =>
      refine ⟨0, rfl, ?_, fun earlier negative => absurd negative (Nat.not_lt_zero _)⟩
      rw [List.drop_zero, ← found]
      exact matchAt_before ..
  | cons first rest ih =>
    unfold regexMatch
    cases found : matchAt newline ⟨before, first :: rest⟩ with
    | some result =>
      refine ⟨0, rfl, ?_, fun earlier negative => absurd negative (Nat.not_lt_zero _)⟩
      rw [List.drop_zero, ← found]
      exact matchAt_before ..
    | none =>
      have here : matchAt newline ⟨none, first :: rest⟩ = none := (matchAt_before ..).trans found
      have later := ih (start + 1) (some first)
      dsimp only
      cases next : regexMatch newline (start + 1) (some first) rest with
      | none =>
        rw [next] at later
        intro skipped small
        cases skipped with
        | zero => exact here
        | succ skipped => exact later skipped (by simpa using small)
      | some result =>
        rw [next] at later
        obtain ⟨skipped, same, matched, unmatched⟩ := later
        refine ⟨skipped + 1, by omega, matched, fun earlier small => ?_⟩
        cases earlier with
        | zero => exact here
        | succ earlier => exact unmatched earlier (by omega)

/-- The next token of a source that does not end: an unknown stretch up to the next match, or a match. -/
inductive NextToken (newline : Char → Bool) (source : List Char) : TokenType × Nat → Prop where
  | unknown {length : Nat} (positive : 0 < length) (inside : length ≤ source.length)
    (unmatched : ∀ skipped < length, matchAt newline ⟨none, source.drop skipped⟩ = none) :
    NextToken newline source (.unknown, length)
  | matched {type : TokenType} {stop : Place} (found : matchAt newline ⟨none, source⟩ = some (type, stop)) :
    NextToken newline source (type, source.length - stop.after.length)

/-- Below 2^32 characters the first match is the token that the specification demands. -/
private theorem matchToken_next (newline : Char → Bool) {source : List Char} (small : source.length < 2 ^ 32)
    (nonempty : source ≠ []) : NextToken newline source (matchToken newline source) := by
  have leftmost := regexMatch_leftmost newline 0 none source
  unfold matchToken
  cases search : regexMatch newline 0 none source with
  | none =>
    rw [search] at leftmost
    dsimp only
    rw [Nat.mod_eq_of_lt small]
    exact .unknown (List.length_pos_iff.mpr nonempty) le_rfl fun skipped small => leftmost skipped small.le
  | some result =>
    obtain ⟨start, type, stop⟩ := result
    rw [search] at leftmost
    obtain ⟨skipped, same, found, unmatched⟩ := leftmost
    rw [Nat.zero_add] at same
    subst same
    dsimp only
    by_cases zero : start = 0
    · subst zero
      rw [if_neg (not_not.mpr rfl)]
      exact .matched found
    · rw [if_pos zero]
      refine .unknown (Nat.pos_of_ne_zero zero) ?_ unmatched
      by_contra outside
      have empty : source.drop start = [] := List.drop_eq_nil_of_le (by omega)
      rw [empty] at found
      exact absurd (matchAt_consumes found).2 (by simp)

theorem NextToken.length {source : List Char} {type : TokenType} {length : Nat}
    (next : NextToken newline source (type, length)) : 0 < length ∧ length ≤ source.length := by
  cases next with
  | unknown positive inside _ => exact ⟨positive, inside⟩
  | matched found =>
    have shorter := (matchAt_consumes found).2
    dsimp only at shorter
    exact ⟨by omega, Nat.sub_le _ _⟩

/-- A token is the next one at its offset, and the scanner goes on behind it. -/
theorem scannerNextToken_next (newline : Char → Bool) {source : List Char} (small : source.length < 2 ^ 32) {position : Nat}
    (more : source.drop position ≠ []) : ∃ type length, NextToken newline (source.drop position) (type, length) ∧
      position + length ≤ source.length ∧
      scannerNextToken newline ⟨source, position⟩ = some (⟨type, position, length⟩, ⟨source, position + length⟩) := by
  have fits : (source.drop position).length < 2 ^ 32 := (List.drop_sublist position source).length_le.trans_lt small
  have next := matchToken_next newline fits more
  obtain ⟨type, length, same⟩ : ∃ type length, matchToken newline (source.drop position) = (type, length) := ⟨_, _, rfl⟩
  rw [same] at next
  obtain ⟨positive, short⟩ := next.length
  rw [List.length_drop] at short
  have inside : position + length ≤ source.length := by omega
  refine ⟨type, length, next, inside, ?_⟩
  rw [scannerNextToken, if_neg more]
  dsimp only
  rw [same, Nat.mod_eq_of_lt (inside.trans_lt small)]

/-- Behind the last character that a `uint32_t` can tell, the scanner never comes to the end. -/
theorem tokenizeLoop_small {n : Nat} {source : List Char} {position : Nat} {result result' : Int} {tokens tokens' : List Token}
    (computed : tokenizeLoop newline n ⟨source, position⟩ result tokens = some (result', tokens'))
    (fits : position < 2 ^ 32) : source.length < 2 ^ 32 := by
  induction n generalizing position result tokens with
  | zero => cases computed
  | succ n ih =>
    rw [tokenizeLoop, scannerNextToken] at computed
    by_cases done : source.drop position = []
    · exact (List.drop_eq_nil_iff.mp done).trans_lt fits
    · rw [if_neg done] at computed
      dsimp only at computed
      have wraps (position : Nat) : position % 2 ^ 32 < 2 ^ 32 := Nat.mod_lt position (by decide)
      split at computed
      · exact ih computed (wraps _)
      · split at computed
        · exact ih computed (wraps _)
        · exact ih computed (wraps _)

/-- A match is the text up to the place where it ends. -/
private theorem matchAt_lexeme {source : List Char} {type : TokenType} {stop : Place}
    (found : matchAt newline ⟨none, source⟩ = some (type, stop)) :
    source = source.take (source.length - stop.after.length) ++ stop.after := by
  obtain ⟨lexeme, same⟩ := (matchAt_consumes found).1
  dsimp only at same
  have length : lexeme.length = source.length - stop.after.length := by
    rw [← same, List.length_append]
    omega
  rw [← length]
  conv_rhs => rw [← same]
  rw [List.take_left, same]

/-- Tokens that follow each other without a gap, none of them empty. -/
def Consecutive : Nat → List Token → Nat → Prop
  | start, [], stop => start = stop
  | start, token :: rest, stop => token.offset = start ∧ 0 < token.length ∧ Consecutive (start + token.length) rest stop

/-- The spans cover the text in order, by induction on what remains. -/
theorem scannerSpans_spec (newline : Char → Bool) {source : List Char} (fits : source.length < 2 ^ 32) (remaining : Nat)
    {position : Nat} (inside : position + remaining = source.length) :
    ∃ spans, (∀ n, remaining < n → scannerSpans newline n ⟨source, position⟩ = some spans) ∧
      Consecutive position spans source.length ∧
      ∀ span ∈ spans, NextToken newline (source.drop span.offset) (span.type, span.length) := by
  induction remaining using Nat.strong_induction_on generalizing position with
  | _ remaining ih =>
    by_cases done : source.drop position = []
    · have ended : remaining = 0 := by
        have := List.drop_eq_nil_iff.mp done
        omega
      refine ⟨[], fun n enough => ?_, by rw [Consecutive]; omega, by simp⟩
      cases n with
      | zero => exact absurd enough (Nat.not_lt_zero _)
      | succ n => rw [scannerSpans, scannerNextToken, if_pos done]
    · obtain ⟨type, length, next, short, step⟩ := scannerNextToken_next newline fits done
      obtain ⟨positive, -⟩ := next.length
      have inside' : position + length + (remaining - length) = source.length := by omega
      obtain ⟨spans, computed, consecutive, tokens⟩ := ih (remaining - length) (by omega) inside'
      refine ⟨⟨type, position, length⟩ :: spans, fun n enough => ?_, ⟨rfl, positive, consecutive⟩,
        List.forall_mem_cons.mpr ⟨next, tokens⟩⟩
      cases n with
      | zero => exact absurd enough (Nat.not_lt_zero _)
      | succ n =>
        rw [scannerSpans, step]
        dsimp only
        rw [computed n (by omega)]
        rfl

/-- The loop hands out the spans that are neither ignored nor errors. -/
theorem tokenizeLoop_spans {n : Nat} {scanner : Scanner} {spans : List Token}
    (computed : scannerSpans newline n scanner = some spans) (result : Int) (tokens : List Token) :
    tokenizeLoop newline n scanner result tokens =
      some (if spans.any (fun span => !span.type.isIgnored && span.type.isError) then -1 else result,
        tokens ++ spans.filter fun span => !span.type.isIgnored && !span.type.isError) := by
  induction n generalizing scanner spans result tokens with
  | zero => cases computed
  | succ n ih =>
    unfold scannerSpans at computed
    unfold tokenizeLoop
    cases next : scannerNextToken newline scanner with
    | none =>
      rw [next] at computed
      rw [← Option.some.inj computed]
      simp
    | some step =>
      obtain ⟨token, following⟩ := step
      rw [next] at computed
      obtain ⟨rest, following', rfl⟩ := Option.map_eq_some_iff.mp computed
      dsimp only
      rw [List.any_cons, List.filter_cons]
      cases token.type.isIgnored with
      | true => simp [ih following']
      | false =>
        cases token.type.isError with
        | true => simp [ih following']
        | false => simp [ih following']

/-- A type that is ignored is no error. -/
private theorem isIgnored_not_error {type : TokenType} (ignored : type.isIgnored = true) : type.isError = false := by
  cases type <;> first | rfl | exact absurd ignored (by decide)

/-- The longest identifier at a place is the word there, when it begins with a letter. -/
private theorem isLongestLexeme_identifier {place : Place} {word : List Char}
    (letter : word.head?.any isLetter = true) :
    IsLongestLexeme newline (· = .identifier) place word ↔ place.after.takeWhile isWord = word := by
  have split : place.after.takeWhile isWord ++ place.after.dropWhile isWord = place.after :=
    List.takeWhile_append_dropWhile
  have shorter {lexeme : List Char} (matched : IsLexeme newline .identifier place lexeme) :
      lexeme.length ≤ (place.after.takeWhile isWord).length := by
    obtain ⟨stop, reached, same⟩ := matched
    have bound := identifier_ends reached
    have lengths := congrArg List.length (split.trans same)
    rw [List.length_append, List.length_append] at lengths
    omega
  have whole (matched : (regexPattern newline .identifier).ends place ≠ []) :
      IsLexeme newline .identifier place (place.after.takeWhile isWord) := by
    obtain ⟨first, rest, found⟩ := List.exists_cons_of_ne_nil matched
    have head : ((regexPattern newline .identifier).ends place).head? = some first := by rw [found, List.head?_cons]
    exact ⟨first, List.mem_of_mem_head? head, by rw [identifier_first head, split]⟩
  constructor
  · rintro ⟨⟨type, rfl, matched⟩, longest⟩
    have bound := longest .identifier _ rfl (whole fun none => by
      obtain ⟨stop, reached, -⟩ := matched
      rw [none] at reached
      cases reached)
    obtain ⟨stop, reached, same⟩ := matched
    have prefixes : word <+: place.after.takeWhile isWord := by
      refine List.prefix_of_prefix_length_le (same ▸ List.prefix_append ..) ?_ (shorter ⟨stop, reached, same⟩)
      exact List.takeWhile_prefix isWord
    exact (prefixes.eq_of_length_le bound).symm
  · intro same
    have matched : (regexPattern newline .identifier).ends place ≠ [] := by
      obtain ⟨first, rest, characters⟩ : ∃ first rest, word = first :: rest := by
        cases word with
        | nil => cases letter
        | cons first rest => exact ⟨first, rest, rfl⟩
      have here : place.after = first :: (rest ++ place.after.dropWhile isWord) := by
        rw [← List.cons_append, ← characters, ← same, split]
      have begins : isLetter first = true := by simpa [characters] using letter
      have ends : (regexPattern newline .identifier).ends place =
          ((Regex.character isLetter).ends place).flatMap (Regex.greedy (.character isWord)).ends := rfl
      obtain ⟨⟨stop, head, -⟩, -⟩ := Regex.greedy_character isWord ⟨some first, rest ++ place.after.dropWhile isWord⟩
      rw [ends, Regex.ends, here]
      dsimp only
      rw [if_pos begins, List.flatMap_singleton]
      exact List.ne_nil_of_mem (List.mem_of_mem_head? head)
    subst same
    exact ⟨⟨.identifier, rfl, whole matched⟩, fun type other same matched => shorter (same ▸ matched)⟩

private theorem placeAt_ends (source : List Char) (offset : Nat) {type : TokenType} (mem : type ∈ TokenType.all) :
    (regexPattern newline type).ends (placeAt source offset) =
      (regexPattern newline type).ends ⟨none, source.drop offset⟩ :=
  Regex.ends_before (regexPattern_leads newline mem) ..

private theorem unknown_not_mem : .unknown ∉ TokenType.all := by decide

/-- In an unknown stretch no pattern matches. -/
private theorem NextToken.no_lexeme {source : List Char} {offset length : Nat}
    (next : NextToken newline (source.drop offset) (.unknown, length)) {skipped : Nat} (small : skipped < length)
    {type : TokenType} (mem : type ∈ TokenType.all) (lexeme : List Char) :
    ¬ IsLexeme newline type (placeAt source (offset + skipped)) lexeme := by
  rintro ⟨stop, reached, -⟩
  rw [placeAt_ends source _ mem] at reached
  cases next with
  | unknown _ _ unmatched =>
    have none := unmatched skipped small
    rw [List.drop_drop, matchAt_eq_none] at none
    rw [none type mem] at reached
    cases reached
  | matched found => exact absurd (matchAt_mem found).1 unknown_not_mem

/-- An ordinary token is a longest lexeme. -/
theorem NextToken.longest {source : List Char} {offset length : Nat} {type : TokenType}
    (next : NextToken newline (source.drop offset) (type, length)) (ordinary : type.Ordinary) :
    IsLexeme newline type (placeAt source offset) ((source.drop offset).take length) ∧
      IsLongestLexeme newline TokenType.Ordinary (placeAt source offset) ((source.drop offset).take length) := by
  cases next with
  | unknown => exact absurd ordinary.1 unknown_not_mem
  | @matched _ stop found =>
    have lexeme := matchAt_lexeme found
    have matched : IsLexeme newline type (placeAt source offset)
        ((source.drop offset).take ((source.drop offset).length - stop.after.length)) := by
      refine ⟨stop, ?_, lexeme⟩
      rw [placeAt_ends source offset ordinary.1]
      exact (matchAt_mem found).2
    refine ⟨matched, ⟨type, ordinary, matched⟩, fun other text ordinary' matched' => ?_⟩
    obtain ⟨stop', reached, same⟩ := matched'
    rw [placeAt_ends source offset ordinary'.1] at reached
    have shorter := matchAt_longest found ordinary ordinary' reached
    have lengths := congrArg List.length (lexeme.symm.trans same)
    rw [List.length_append, List.length_append] at lengths
    omega

/-- A token is a keyword when the word at its offset is. -/
theorem NextToken.keyword {source : List Char} {offset length : Nat} {chosen : TokenType}
    (next : NextToken newline (source.drop offset) (chosen, length)) {type : TokenType} {word : List Char}
    (keyword : type.keyword = some word) :
    chosen = type ↔ IsLongestLexeme newline (· = .identifier) (placeAt source offset) word := by
  have letter : word.head?.any isLetter = true := by
    cases type <;> cases keyword <;> decide
  have whole : (∃ stop, matchAt newline ⟨none, source.drop offset⟩ = some (type, stop)) ↔ _ := matchAt_keyword keyword
  rw [isLongestLexeme_identifier letter]
  refine Iff.trans ?_ whole
  cases next with
  | unknown positive _ unmatched =>
    have none := unmatched 0 positive
    rw [List.drop_zero] at none
    rw [none]
    refine iff_of_false (fun same => ?_) (by simp)
    exact unknown_not_mem (same ▸ (keyword_word keyword).2.2)
  | @matched _ stop found =>
    rw [found]
    constructor
    · rintro rfl
      exact ⟨stop, rfl⟩
    · rintro ⟨stop', same⟩
      exact (Prod.mk.inj (Option.some.inj same)).1

/-- The scanner cuts every source into tokens that cover it; unknown tokens contain no lexeme, ordinary ones are
longest lexemes, and keywords are whole words. It succeeds, with the tokens that are not ignored, exactly when
no token is an error. The offsets of a source of 2^32 characters do not fit `uint32_t`. -/
theorem scannerTokenize_correct (newline : Char → Bool) {source : List Char} (fits : source.length < 2 ^ 32) :
    ∃ spans : List Token,
    (∀ n, source.length < n → scannerSpans newline n (scannerStart source) = some spans ∧
      scannerTokenize newline n source =
        some (if spans.any (fun span => span.type.isError) then (-1, none)
          else (0, some (spans.filter fun span => !span.type.isIgnored)))) ∧
    Consecutive 0 spans source.length ∧
    (∀ span ∈ spans, span.type = .unknown → ∀ skipped < span.length, ∀ type ∈ TokenType.all, ∀ lexeme,
      ¬ IsLexeme newline type (placeAt source (span.offset + skipped)) lexeme) ∧
    (∀ span ∈ spans, span.type.Ordinary →
      IsLexeme newline span.type (placeAt source span.offset) ((source.drop span.offset).take span.length) ∧
      IsLongestLexeme newline TokenType.Ordinary (placeAt source span.offset)
        ((source.drop span.offset).take span.length)) ∧
    ∀ span ∈ spans, ∀ type word, type.keyword = some word →
      (span.type = type ↔ IsLongestLexeme newline (· = .identifier) (placeAt source span.offset) word) := by
  obtain ⟨spans, computed, consecutive, tokens⟩ :=
    scannerSpans_spec newline fits source.length (Nat.zero_add _)
  refine ⟨spans, fun n enough => ⟨computed n enough, ?_⟩, consecutive, fun span mem unknown skipped small type listed
    lexeme => ?_, fun span mem ordinary => (tokens span mem).longest ordinary,
    fun span mem type word keyword => (tokens span mem).keyword keyword⟩
  · have loop := tokenizeLoop_spans (computed n enough) 0 []
    have errors : (fun span : Token => !span.type.isIgnored && span.type.isError) = fun span => span.type.isError := by
      funext span
      cases ignored : span.type.isIgnored with
      | true => rw [isIgnored_not_error ignored, Bool.and_false]
      | false => rw [Bool.not_false, Bool.true_and]
    unfold scannerTokenize scannerStart
    rw [loop, errors, Option.map_some]
    by_cases failed : spans.any (fun span => span.type.isError) = true
    · rw [if_pos failed, if_pos failed]
      rfl
    · rw [if_neg failed, if_neg failed]
      have none : ∀ span ∈ spans, span.type.isError = false := by simpa using failed
      dsimp only
      rw [if_pos rfl, List.nil_append]
      have same : spans.filter (fun span => !span.type.isIgnored && !span.type.isError) =
          spans.filter fun span => !span.type.isIgnored :=
        List.filter_congr fun span mem => by rw [none span mem, Bool.not_false, Bool.and_true]
      rw [same]
  · have next := tokens span mem
    rw [unknown] at next
    exact next.no_lexeme small listed lexeme

end

def unrecognizedText : List Char := "int intx ? 0x1; // n\nif".toList

def unrecognizedSpans : List Token :=
  [⟨.keywordInt, 0, 3⟩, ⟨.whitespace, 3, 1⟩, ⟨.identifier, 4, 4⟩, ⟨.whitespace, 8, 1⟩, ⟨.unknown, 9, 1⟩,
    ⟨.whitespace, 10, 1⟩, ⟨.hexLiteral, 11, 3⟩, ⟨.semicolon, 14, 1⟩, ⟨.whitespace, 15, 1⟩, ⟨.lineComment, 16, 4⟩,
    ⟨.whitespace, 20, 1⟩, ⟨.keywordIf, 21, 2⟩]

/-- `intx` is not a keyword, and nothing begins with `?`. -/
theorem scannerTokenize_correct_unrecognizedText :
    scannerTokenize (· == '\n') 24 unrecognizedText = some (-1, none) ∧
      IsLongestLexeme (· == '\n') TokenType.Ordinary (placeAt unrecognizedText 4) "intx".toList ∧
      ¬ IsLongestLexeme (· == '\n') (· = .identifier) (placeAt unrecognizedText 4) "int".toList ∧
      ∀ type ∈ TokenType.all, ∀ lexeme, ¬ IsLexeme (· == '\n') type (placeAt unrecognizedText 9) lexeme := by
  obtain ⟨spans, computed, -, unknown, ordinary, keyword⟩ :=
    @scannerTokenize_correct (· == '\n') unrecognizedText (by decide)
  obtain ⟨cut, result⟩ := computed 24 (by decide)
  have same : scannerSpans (· == '\n') 24 (scannerStart unrecognizedText) = some unrecognizedSpans := by decide +kernel
  obtain rfl : unrecognizedSpans = spans := Option.some.inj (same.symm.trans cut)
  refine ⟨result, (ordinary ⟨.identifier, 4, 4⟩ (by decide) (by decide)).2, fun whole => ?_, fun type listed lexeme => ?_⟩
  · exact absurd ((keyword ⟨.identifier, 4, 4⟩ (by decide) .keywordInt _ rfl).mpr whole) (by decide)
  · exact unknown ⟨.unknown, 9, 1⟩ (by decide) rfl 0 (by decide) type listed lexeme

end Roast
