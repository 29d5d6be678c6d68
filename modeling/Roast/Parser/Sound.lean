import Roast.Parser.Operators

/-! What the tokens are that a function of the parser consumes without reporting an error. -/
namespace Roast
open TokenType AstNode

/-- From `p`, a parse that reports no error started without errors and consumed tokens of the language, or it found
nothing and consumed nothing. -/
def Parses (parsed : Parsed) (p : Parser) (language : List Token → AstNode → Prop) : Prop :=
  parsed.2.errors = [] → p.errors = [] ∧
    match parsed.1 with
    | none => parsed.2 = p
    | some node => ∃ tokens, p.tokens = tokens ++ parsed.2.tokens ∧ language tokens node

def SoundParse (parse : Parser → Parsed) (language : List Token → AstNode → Prop) : Prop :=
  ∀ p, Parses (parse p) p language

namespace Parser

@[simp] theorem parseError_errors_ne (message : String) (p : Parser) : ((p.parseError message).errors = []) = False := by
  simp [parseError]

@[simp] theorem parseError_tokens (message : String) (p : Parser) : (p.parseError message).tokens = p.tokens := rfl

theorem nextToken_cons (type : TokenType) (token : Token) (rest : List Token) (errors : List String) :
    (⟨token :: rest, errors⟩ : Parser).nextToken type =
      if token.type = type then some (token, ⟨rest, errors⟩) else none := rfl

theorem nextTokenInTable_nil (table : List TokenType) (errors : List String) :
    (⟨[], errors⟩ : Parser).nextTokenInTable table = none := by
  simp [nextTokenInTable, nextToken]

theorem nextTokenInTable_cons (table : List TokenType) (token : Token) (rest : List Token) (errors : List String) :
    (⟨token :: rest, errors⟩ : Parser).nextTokenInTable table =
      if token.type ∈ table then some (token, ⟨rest, errors⟩) else none := by
  induction table with
  | nil => simp [nextTokenInTable]
  | cons type table ih =>
    rw [nextTokenInTable] at ih ⊢
    rw [List.findSome?_cons, nextToken_cons]
    by_cases same : token.type = type
    · simp [same]
    · simp only [same, if_false, ih, List.mem_cons, false_or]

theorem nextTokenInTable_eq_some {table : List TokenType} {p p' : Parser} {token : Token}
    (next : p.nextTokenInTable table = some (token, p')) :
    token.type ∈ table ∧ p.tokens = token :: p'.tokens ∧ p'.errors = p.errors := by
  rcases p with ⟨_ | ⟨head, rest⟩, errors⟩
  · simp [nextTokenInTable_nil] at next
  · rw [nextTokenInTable_cons] at next
    split at next
    · cases next
      exact ⟨by assumption, rfl, rfl⟩
    · cases next

theorem nextToken_eq_inTable (type : TokenType) (p : Parser) : p.nextToken type = p.nextTokenInTable [type] := by
  simp [nextTokenInTable]

theorem nextToken_eq_some {type : TokenType} {p p' : Parser} {token : Token}
    (next : p.nextToken type = some (token, p')) :
    token.type = type ∧ p.tokens = token :: p'.tokens ∧ p'.errors = p.errors := by
  rw [nextToken_eq_inTable] at next
  simpa using nextTokenInTable_eq_some next

theorem nextToken_of {type : TokenType} {p : Parser} {token : Token} {rest : List Token}
    (head : p.tokens = token :: rest) (same : token.type = type) : p.nextToken type = some (token, ⟨rest, p.errors⟩) := by
  simp [nextToken, head, same]

theorem expectToken_sound {type : TokenType} {message : String} {p : Parser}
    (fine : (p.expectToken type message).errors = []) :
    p.errors = [] ∧ ∃ token, token.type = type ∧ p.tokens = token :: (p.expectToken type message).tokens := by
  rw [expectToken] at fine ⊢
  split at fine
  · rename_i token p' next
    have := nextToken_eq_some next
    exact ⟨this.2.2 ▸ fine, token, this.1, this.2.1⟩
  · simp at fine

end Parser

theorem Parsed.require_sound {message : String} {parsed : Parsed} (fine : (parsed.require message).2.errors = []) :
    ∃ node, parsed.require message = (some node, parsed.2) ∧ parsed = (some node, parsed.2) ∧ parsed.2.errors = [] := by
  rcases parsed with ⟨_ | node, p⟩
  · simp [Parsed.require] at fine
  · exact ⟨node, rfl, rfl, fine⟩

section
variable {parsed : Parsed} {p : Parser} {parse next : Parser → Parsed} {language other : List Token → AstNode → Prop}

theorem Parses.mono (sound : Parses parsed p language) (le : ∀ tokens node, language tokens node → other tokens node) :
    Parses parsed p other := by
  intro fine
  obtain ⟨start, found⟩ := sound fine
  refine ⟨start, ?_⟩
  split at found
  · exact found
  · obtain ⟨tokens, split, mem⟩ := found
    exact ⟨tokens, split, le _ _ mem⟩

private theorem Parses.eq_none (sound : Parses parsed p language) (fine : parsed.2.errors = [])
    (none : parsed.1 = none) :
    parsed = (Option.none, p) := by
  have found := (sound fine).2
  rw [none] at found
  exact Prod.ext none found

theorem Parses.eq_some (sound : Parses parsed p language) (fine : parsed.2.errors = []) {node : AstNode}
    (some : parsed.1 = some node) :
    p.errors = [] ∧ ∃ tokens, p.tokens = tokens ++ parsed.2.tokens ∧ language tokens node := by
  have found := sound fine
  rw [some] at found
  exact found

/-- The next alternative is tried only where the first found nothing. -/
theorem Parses.orElse (sound : Parses parsed p language) (keeps : ∀ p, (next p).2.errors = [] → p.errors = [])
    (sound' : parsed = (none, p) → Parses (next p) p language) : Parses (parsed.orElse next) p language := by
  rcases parsed with ⟨_ | node, p'⟩
  · intro fine
    have same := sound.eq_none (keeps p' fine) rfl
    obtain rfl : p' = p := congrArg Prod.snd same
    exact sound' same fine
  · exact sound

theorem SoundParse.keeps (sound : SoundParse parse language) (p : Parser) (fine : (parse p).2.errors = []) :
    p.errors = [] := (sound p fine).1

theorem SoundParse.mono (sound : SoundParse parse language)
    (le : ∀ tokens node, language tokens node → other tokens node) : SoundParse parse other :=
  fun p => (sound p).mono le

theorem SoundParse.orElse (sound : SoundParse parse language) (sound' : SoundParse next language) :
    SoundParse (fun p => (parse p).orElse next) language :=
  fun p => (sound p).orElse sound'.keeps fun _ => sound' p

theorem Parses.wrap {build : AstNode → AstNode} (sound : Parses parsed p language)
    (le : ∀ tokens node, language tokens node → other tokens (build node)) : Parses (parsed.wrap build) p other := by
  rcases parsed with ⟨_ | node, p'⟩
  · exact sound
  · intro fine
    obtain ⟨start, tokens, split, mem⟩ := sound fine
    exact ⟨start, tokens, split, le _ _ mem⟩

theorem Parses.nothing : Parses (none, p) p language := fun fine => ⟨fine, rfl⟩

theorem parseTable_sound (table : List TokenType) (type : AstNodeType) :
    SoundParse (parseTable table type) fun tokens node => ∃ token, token.type ∈ table ∧ tokens = [token] ∧
      node = leaf type token := by
  intro p
  rw [parseTable]
  cases next : p.nextTokenInTable table with
  | none => exact Parses.nothing
  | some found =>
    intro fine
    obtain ⟨mem, split, errors⟩ := Parser.nextTokenInTable_eq_some next
    exact ⟨errors ▸ fine, [found.1], split, found.1, mem, rfl, rfl⟩

/-- Items between commas that are parsed are derived. -/
theorem parseSeparated_sound (sound : SoundParse parse language) (itemMessage : String) (close : TokenType)
    (closeMessage : String) (n : Nat) (children : List AstNode) (p : Parser)
    (fine : (parseSeparated parse itemMessage close closeMessage n children p).2.errors = []) :
    p.errors = [] ∧ ∃ tokens nodes, Separated language close tokens nodes ∧
      p.tokens = tokens ++ (parseSeparated parse itemMessage close closeMessage n children p).2.tokens ∧
      (parseSeparated parse itemMessage close closeMessage n children p).1 = children ++ nodes := by
  induction n generalizing children p with
  | zero => simp [parseSeparated] at fine
  | succ n ih =>
    simp only [parseSeparated] at fine ⊢
    cases next : ((parse p).require itemMessage).2.nextToken comma with
    | some found =>
      obtain ⟨separator, p'⟩ := found
      simp only [next] at fine ⊢
      obtain ⟨start, tokens, nodes, items, split, same⟩ := ih _ _ fine
      obtain ⟨hseparator, consumed, errors⟩ := Parser.nextToken_eq_some next
      obtain ⟨node, required, found, fine⟩ := @Parsed.require_sound itemMessage (parse p)
        (by rw [← errors]; exact start)
      obtain ⟨start, first, split', mem⟩ := (sound p).eq_some fine (congrArg Prod.fst found)
      refine ⟨start, first ++ separator :: tokens, node :: nodes, .cons mem hseparator items, ?_, ?_⟩
      · rw [required] at consumed
        rw [split', consumed, split]
        simp
      · rw [same, required]
        simp
    | none =>
      simp only [next] at fine ⊢
      obtain ⟨start, closing, hclosing, consumed⟩ := Parser.expectToken_sound fine
      obtain ⟨node, required, found, fine⟩ := Parsed.require_sound start
      obtain ⟨start, first, split', mem⟩ := (sound p).eq_some fine (congrArg Prod.fst found)
      refine ⟨start, first ++ [closing], [node], .last mem hclosing, ?_, ?_⟩
      · rw [split', required]
        rw [required] at consumed
        simpa using consumed
      · rw [required]
        simp

end

end Roast
