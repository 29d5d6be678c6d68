import Roast.Parser.Completeness

/-! Which lists of tokens `parser_parse` accepts. -/
namespace Roast
open TokenType AstNode

section
variable {n : Nat} {rest : List Token} {errors : List String}

theorem DerivesParameters.head {missing : Prop} {tokens : List Token} {parameters : List AstParameter}
    (derives : DerivesParameters missing tokens parameters) : ∃ type last, tokens = type :: last ∧ type.type ∈ TYPES := by
  cases derives with
  | last htype => exact ⟨_, _, rfl, htype⟩
  | comma htype => exact ⟨_, _, rfl, htype⟩
  | missing _ htype => exact ⟨_, _, rfl, htype⟩

private theorem parseMethodArgument_cons {type name : Token} (htype : type.type ∈ TYPES)
    (hname : name.type = identifier) :
    parseMethodArgument ⟨type :: name :: rest, errors⟩ = (some (AstParameter.toNode ⟨type, name⟩), ⟨rest, errors⟩) := by
  simp only [parseMethodArgument, parseType_cons htype, Building.child_eq (parseIdentifier_cons hname)]
  rfl

private theorem types_ne {type : TokenType} (mem : type ∈ TYPES) {other : TokenType} (different : other ∉ TYPES) :
    type ≠ other :=
  fun same => different (same ▸ mem)

/-- Derived parameters are parsed. -/
theorem DerivesParameters.parse {tokens : List Token} {parameters : List AstParameter}
    (derives : DerivesParameters True tokens parameters) (m : Nat) (children : List AstNode) (bound : tokens.length ≤ m) :
    parseMethodArguments m (children, ⟨tokens ++ rest, errors⟩) =
      (children ++ parameters.map AstParameter.toNode, ⟨rest, errors⟩) := by
  induction derives generalizing m children with
  | @last type name closing htype hname hclosing =>
    simp only [List.length_cons, List.length_nil] at bound
    obtain ⟨m, rfl⟩ : ∃ k, m = k + 2 := ⟨m - 2, by omega⟩
    simp [parseMethodArguments, Parser.nextToken_cons, types_ne htype (by decide : closeParenthesis ∉ TYPES),
      parseMethodArgument_cons htype hname, hclosing]
  | @comma type name separator tokens parameters htype hname hseparator others ih =>
    simp only [List.length_cons] at bound
    obtain ⟨m, rfl⟩ : ∃ k, m = k + 1 := ⟨m - 1, by omega⟩
    have next := ih m (children ++ [AstParameter.toNode ⟨type, name⟩]) (by omega)
    obtain ⟨type', last, rfl, htype'⟩ := others.head
    rw [List.cons_append] at next
    simp [parseMethodArguments, Parser.nextToken_cons, types_ne htype (by decide : closeParenthesis ∉ TYPES),
      parseMethodArgument_cons htype hname, hseparator, Parser.peekToken,
      types_ne htype' (by decide : closeParenthesis ∉ TYPES), next]
  | @missing type name tokens parameters _ htype hname others ih =>
    simp only [List.length_cons] at bound
    obtain ⟨m, rfl⟩ : ∃ k, m = k + 1 := ⟨m - 1, by omega⟩
    have next := ih m (children ++ [AstParameter.toNode ⟨type, name⟩]) (by omega)
    obtain ⟨type', last, rfl, htype'⟩ := others.head
    rw [List.cons_append] at next
    simp [parseMethodArguments, Parser.nextToken_cons, types_ne htype (by decide : closeParenthesis ∉ TYPES),
      parseMethodArgument_cons htype hname, types_ne htype' (by decide : TokenType.comma ∉ TYPES), next]

private theorem parseMethodType_cons {type : Token} (htype : type.type ∈ keywordVoid :: TYPES) :
    (parseVoid ⟨type :: rest, errors⟩).orElse parseType =
      (some (if type.type = keywordVoid then inner .void [] else leaf .dataType type), ⟨rest, errors⟩) := by
  rcases List.mem_cons.mp htype with same | mem
  · simp [parseVoid, Parser.nextToken_cons, same, Parsed.orElse]
  · have other := types_ne mem (by decide : keywordVoid ∉ TYPES)
    simp [parseVoid, Parser.nextToken_cons, other, Parsed.orElse, parseType_cons mem]

/-- A derived method is parsed. -/
private theorem parseMethod_completes :
    Completes (parseMethod n) (DerivesMethod True) AstMethod.toNode (fun _ => True) (n / 2) := by
  rintro _ _ rest errors derives bound -
  cases derives with
  | @empty type name opening closing tokens block htype hname hopening hclosing hblock =>
    simp only [List.length_cons] at bound
    obtain ⟨n, rfl⟩ : ∃ k, n = k + 1 := ⟨n - 1, by omega⟩
    have parsed := hblock.parse (n + 1) (n + 1) rest errors (by omega) (by omega)
    simp only [List.cons_append]
    simp only [parseMethod, parseMethodType_cons htype, Building.child_eq (parseIdentifier_cons hname),
      Building.expect_cons hopening, parseMethodArguments, Parser.nextToken_cons, hclosing, if_true, Building.child_eq parsed]
    rfl
  | @parameters type name opening tokens last parameters block htype hname hopening hparameters hblock =>
    simp only [List.length_cons, List.length_append] at bound
    have parsed := hblock.parse n n rest errors (by omega) (by omega)
    simp only [List.cons_append, List.append_assoc]
    simp only [parseMethod, parseMethodType_cons htype, Building.child_eq (parseIdentifier_cons hname),
      Building.expect_cons hopening, hparameters.parse n _ (by omega), Building.child_eq parsed]
    simp [Building.finish, AstMethod.toNode]

private theorem parseImport_completes : Completes parseImport DerivesImport (fun name => inner .import [leaf .identifier name])
    (fun _ => True) n := by
  rintro _ _ rest errors (@⟨keyword, name, closing, hkeyword, hname, hclosing⟩) bound -
  simp only [List.cons_append, List.nil_append]
  simp only [parseImport, parseAfter_cons hkeyword, Building.child_eq (parseIdentifier_cons hname),
    Building.expect_cons hclosing]
  rfl

/-- A declarator begins with a name, and no parenthesis follows it. -/
private theorem separated_declarators_head {tokens : List Token} {declarators : List AstDeclarator}
    (separated : Separated DerivesDeclarator semicolon tokens declarators) :
    ∃ name second last, tokens = name :: second :: last ∧ name.type = identifier ∧ second.type ≠ openParenthesis ∧
      second.type ∉ TYPES := by
  have declared {tokens : List Token} {declarator : AstDeclarator} (derives : DerivesDeclarator tokens declarator)
      {token : Token} (rest : List Token) (separates : token.type = comma ∨ token.type = semicolon) :
      ∃ name second last, tokens ++ token :: rest = name :: second :: last ∧ name.type = identifier ∧
        second.type ≠ openParenthesis ∧ second.type ∉ TYPES := by
    have apart : token.type ≠ openParenthesis ∧ token.type ∉ TYPES := by
      rcases separates with same | same <;> rw [same] <;> decide
    cases derives with
    | plain hname hlength =>
      cases hlength with
      | none => exact ⟨_, _, _, rfl, hname, apart⟩
      | empty hopening => exact ⟨_, _, _, rfl, hname, by rw [hopening]; decide⟩
      | literal hopening => exact ⟨_, _, _, rfl, hname, by rw [hopening]; decide⟩
    | initialized hname hlength hequals =>
      cases hlength with
      | none => exact ⟨_, _, _, rfl, hname, by rw [hequals]; decide⟩
      | empty hopening => exact ⟨_, _, _, rfl, hname, by rw [hopening]; decide⟩
      | literal hopening => exact ⟨_, _, _, rfl, hname, by rw [hopening]; decide⟩
  cases separated with
  | last mem hclosing => exact declared mem [] (Or.inr hclosing)
  | cons mem hseparator => exact declared mem _ (Or.inl hseparator)

theorem DerivesField.peek {tokens : List Token} {field : AstField} (derives : DerivesField tokens field) :
    peekField ⟨tokens ++ rest, errors⟩ = true := by
  cases derives with
  | ordinary htype hdeclarators =>
    obtain ⟨name, second, last, rfl, hname, other, _⟩ := separated_declarators_head hdeclarators
    simp only [TYPES, List.mem_cons, List.not_mem_nil, or_false] at htype
    rcases htype with same | same <;> simp [peekField, Parser.peekToken, same, hname, other]
  | constant hkeyword htype hdeclarators =>
    obtain ⟨name, second, last, rfl, hname, other, _⟩ := separated_declarators_head hdeclarators
    simp only [TYPES, List.mem_cons, List.not_mem_nil, or_false] at htype
    rcases htype with same | same <;> simp [peekField, Parser.peekToken, hkeyword, same, hname, other]

/-- Methods begin with a type, a name and a parenthesis. -/
private theorem methods_head {missing : Prop} {tokens : List Token} {methods : List AstMethod}
    (repeated : Repeated (DerivesMethod missing) tokens methods) :
    tokens = [] ∨ ∃ type name opening last, tokens = type :: name :: opening :: last ∧
      type.type ∈ keywordVoid :: TYPES ∧ opening.type = openParenthesis := by
  cases repeated with
  | nil => exact Or.inl rfl
  | cons mem =>
    cases mem with
    | empty htype _ hopening => exact Or.inr ⟨_, _, _, _, rfl, htype, hopening⟩
    | parameters htype _ hopening => exact Or.inr ⟨_, _, _, _, rfl, htype, hopening⟩

private theorem peekField_methods {missing : Prop} {tokens : List Token} {methods : List AstMethod}
    (repeated : Repeated (DerivesMethod missing) tokens methods) : peekField ⟨tokens, errors⟩ = false := by
  rcases methods_head repeated with rfl | ⟨type, name, opening, last, rfl, htype, hopening⟩
  · rfl
  · simp only [TYPES, List.mem_cons, List.not_mem_nil, or_false] at htype
    rcases htype with same | same | same <;> simp [peekField, Parser.peekToken, same, hopening]

private theorem parseImport_none {missing : Prop} {fields methods : List Token} {declared : List AstField}
    {defined : List AstMethod} (hfields : Repeated DerivesField fields declared)
    (hmethods : Repeated (DerivesMethod missing) methods defined) :
    parseImport ⟨fields ++ methods, errors⟩ = (none, ⟨fields ++ methods, errors⟩) := by
  have other : HeadNotIn [keywordImport] (fields ++ methods) := by
    cases hfields with
    | nil =>
      rcases methods_head hmethods with rfl | ⟨type, name, opening, last, rfl, htype, _⟩
      · simp [HeadNotIn]
      · refine headNotIn_cons fun same => ?_
        rw [List.mem_singleton.mp same] at htype
        exact absurd htype (by decide)
    | cons mem =>
      cases mem with
      | ordinary htype =>
        refine headNotIn_cons fun same => ?_
        rw [List.mem_singleton.mp same] at htype
        exact absurd htype (by decide)
      | constant hkeyword => exact headNotIn_cons (by rw [hkeyword]; decide)
  simp only [parseImport, parseAfter, nextToken_none other]

/-- A derived program is parsed to the last token. -/
theorem DerivesProgram.parse {tokens : List Token} {program : AstProgram} (derives : DerivesProgram True tokens program)
    (bound : 2 * tokens.length + 2 ≤ n) : parseProgram n ⟨tokens, []⟩ = (program.toNode, ⟨[], []⟩) := by
  obtain @⟨imports, fields, methods, names, declared, defined, himports, hfields, hmethods⟩ := derives
  simp only [List.length_append] at bound
  have parsedImports := @Repeated.parse n (fields ++ methods) [] _ _ _ _ parseImport_completes
    (fun name derives => by cases derives) _ _ himports (parseImport_none hfields hmethods) n [] (by omega) (by omega)
  have completes : Completes (fun p => if peekField p then parseField n p else (none, p)) DerivesField AstField.toNode
      (fun _ => True) n := by
    intro tokens field rest errors derives bound _
    simp only [derives.peek, if_true]
    exact parseField_completes tokens field rest errors derives bound trivial
  have parsedFields := @Repeated.parse n methods [] _ _ _ _ completes DerivesField.nonempty _ _ hfields
    (by simp [peekField_methods hmethods]) n (names.map fun name => inner .import [leaf .identifier name]) (by omega)
    (by omega)
  have parsedMethods := @Repeated.parse (n / 2) [] [] _ _ _ _ (parseMethod_completes (n := n))
    (fun method derives => by cases derives) _ _ hmethods (by
      simp [parseMethod, parseVoid, Parser.nextToken, parseType, parseTable, Parser.nextTokenInTable_nil, Parsed.orElse]) n
    (names.map (fun name => inner .import [leaf .identifier name]) ++ declared.map AstField.toNode) (by omega) (by omega)
  rw [List.append_nil] at parsedMethods
  rw [List.nil_append] at parsedImports
  simp only [parseProgram, parsedImports, parsedFields, parsedMethods, if_true]
  rfl

/-- `parser_parse` accepts what the grammar with optional commas between parameters derives. -/
theorem parserParse_iff {tokens : List Token} (nonempty : tokens ≠ []) (bound : 2 * tokens.length + 2 ≤ n) :
    (parserParse n tokens).1 = 0 ↔ ∃ program, DerivesProgram True tokens program := by
  rw [parserParse, if_neg nonempty]
  constructor
  · intro accepted
    by_cases fine : (parseProgram n ⟨tokens, []⟩).2.errors = []
    · obtain ⟨program, derives, _⟩ := parseProgram_sound n ⟨tokens, []⟩ fine
      exact ⟨program, derives⟩
    · simp [fine] at accepted
  · rintro ⟨program, derives⟩
    simp [derives.parse bound]

end

def MissingComma (tokens : List Token) : Prop :=
  ∃ before type name next after, tokens = before ++ type :: name :: next :: after ∧ type.type ∈ TYPES ∧
    name.type = identifier ∧ next.type ∈ TYPES

theorem MissingComma.append {tokens : List Token} (missing : MissingComma tokens) (first last : List Token) :
    MissingComma (first ++ (tokens ++ last)) := by
  obtain ⟨before, type, name, next, after, rfl, htype, hname, hnext⟩ := missing
  exact ⟨first ++ before, type, name, next, after ++ last, by simp, htype, hname, hnext⟩

inductive Spaced : List Token → Prop where
  | nil : Spaced []
  | other {token : Token} {rest : List Token} (htoken : token.type ∉ TYPES) (spaced : Spaced rest) :
      Spaced (token :: rest)
  | typed {type name next : Token} {rest : List Token} (hname : name.type = identifier) (hnext : next.type ∉ TYPES)
      (spaced : Spaced rest) : Spaced (type :: name :: next :: rest)

theorem Spaced.append {first second : List Token} (spaced : Spaced first) (spaced' : Spaced second) :
    Spaced (first ++ second) := by
  induction spaced with
  | nil => exact spaced'
  | other htoken _ ih => exact .other htoken ih
  | typed hname hnext _ ih => exact .typed hname hnext ih

theorem Spaced.single {token : Token} (htoken : token.type ∉ TYPES) : Spaced [token] := .other htoken .nil

/-- No comma is missing between spaced tokens. -/
private theorem Spaced.not_missingComma {tokens : List Token} (spaced : Spaced tokens) : ¬MissingComma tokens := by
  induction spaced with
  | nil =>
    rintro ⟨before, type, name, next, after, split, _⟩
    simp at split
  | @other token rest htoken _ ih =>
    rintro ⟨before, type, name, next, after, split, htype, hname, hnext⟩
    cases before with
    | nil =>
      obtain ⟨rfl, -⟩ := List.cons.inj split
      exact htoken htype
    | cons head before =>
      obtain ⟨-, rfl⟩ := List.cons.inj split
      exact ih ⟨before, type, name, next, after, rfl, htype, hname, hnext⟩
  | @typed type name next rest hname hnext _ ih =>
    rintro ⟨before, type', name', next', after, split, htype', hname', hnext'⟩
    rcases before with _ | ⟨_, _ | ⟨_, _ | ⟨_, before⟩⟩⟩ <;> simp only [List.nil_append, List.cons_append] at split
    · injection split with _ split
      injection split with _ split
      injection split with same _
      exact hnext (same ▸ hnext')
    · injection split with _ split
      injection split with same _
      rw [← same, hname] at htype'
      exact absurd htype' (by decide)
    · injection split with _ split
      injection split with _ split
      injection split with same _
      exact hnext (same ▸ htype')
    · injection split with _ split
      injection split with _ split
      injection split with _ split
      exact ih ⟨before, type', name', next', after, split, htype', hname', hnext'⟩

theorem Spaced.tail {token : Token} {rest : List Token} (spaced : Spaced (token :: rest)) : Spaced rest := by
  cases spaced with
  | other _ spaced => exact spaced
  | typed hname hnext spaced => exact .other (by rw [hname]; decide) (.other hnext spaced)

/-- A token of a table without types. -/
private theorem not_types {table : List TokenType} {type : TokenType} (mem : type ∈ table)
    (apart : ∀ other ∈ TYPES, other ∉ table) : type ∉ TYPES := fun typed => apart type typed mem

mutual

/-- The tokens of an operand are spaced. -/
private theorem DerivesUnary.spaced {tokens : List Token} {expression : AstExpression} :
    DerivesUnary tokens expression → Spaced tokens
  | .len hkeyword hopening hname hclosing =>
    .other (by rw [hkeyword]; decide) (.other (by rw [hopening]; decide) (.other (by rw [hname]; decide)
      (.single (by rw [hclosing]; decide))))
  | .not hoperator operand => .other (by rw [hoperator]; decide) operand.spaced
  | .negate hoperator operand _ => .other (by rw [hoperator]; decide) operand.spaced
  | .literal kind => .single (not_types kind (by decide))
  | .negatedLiteral sign kind => .other (by rw [sign]; decide) (.single (not_types kind (by decide)))
  | .call hname hopening hclosing =>
    .other (by rw [hname]; decide) (.other (by rw [hopening]; decide) (.single (by rw [hclosing]; decide)))
  | .callWith hname hopening operands =>
    .other (by rw [hname]; decide) (.other (by rw [hopening]; decide) operands.spaced)
  | .scalar hname => .single (by rw [hname]; decide)
  | .element hname hopening operand hclosing =>
    .other (by rw [hname]; decide) (.other (by rw [hopening]; decide)
      (operand.spaced.append (.single (by rw [hclosing]; decide))))
  | .parenthesis hopening operand hclosing =>
    .other (by rw [hopening]; decide) (operand.spaced.append (.single (by rw [hclosing]; decide)))

private theorem DerivesBinary.spaced {level : Nat} {tokens : List Token} {expression : AstExpression} :
    DerivesBinary level tokens expression → Spaced tokens
  | .unary operand => operand.spaced
  | .binary hoperator _ hleft hright => hleft.spaced.append (.other (not_types hoperator (by decide)) hright.spaced)

private theorem DerivesArguments.spaced {tokens : List Token} {arguments : AstArguments} :
    DerivesArguments tokens arguments → Spaced tokens
  | .lastString hstring hclosing => .other (by rw [hstring]; decide) (.single (by rw [hclosing]; decide))
  | .lastExpression operand hclosing => operand.spaced.append (.single (by rw [hclosing]; decide))
  | .string hstring hseparator operands =>
    .other (by rw [hstring]; decide) (.other (by rw [hseparator]; decide) operands.spaced)
  | .expression operand hseparator operands => operand.spaced.append (.other (by rw [hseparator]; decide) operands.spaced)

end

section
variable {α : Type} {derives : List Token → α → Prop} {tokens : List Token} {items : List α}

private theorem Separated.spaced {close : TokenType} (hclose : close ∉ TYPES)
    (spaced : ∀ tokens item, derives tokens item → Spaced tokens)
    (separated : Separated derives close tokens items) : Spaced tokens := by
  induction separated with
  | last mem hclosing => exact (spaced _ _ mem).append (.single (by rwa [hclosing]))
  | cons mem hseparator _ ih => exact (spaced _ _ mem).append (.other (by rw [hseparator]; decide) ih)

private theorem Repeated.spaced (spaced : ∀ tokens item, derives tokens item → Spaced tokens)
    (repeated : Repeated derives tokens items) : Spaced tokens := by
  induction repeated with
  | nil => exact .nil
  | cons mem _ ih => exact (spaced _ _ mem).append ih

end

private theorem DerivesLiteral.spaced {tokens : List Token} {literal : AstLiteral}
    (derives : DerivesLiteral tokens literal) :
    Spaced tokens := by
  cases derives with
  | plain kind => exact .single (not_types kind (by decide))
  | negated sign kind => exact .other (by rw [sign]; decide) (.single (not_types kind (by decide)))

private theorem DerivesInitializer.spaced {tokens : List Token} {initializer : AstInitializer}
    (derives : DerivesInitializer tokens initializer) : Spaced tokens := by
  cases derives with
  | scalar hliteral => exact hliteral.spaced
  | array hopening hliterals =>
    exact .other (by rw [hopening]; decide) (hliterals.spaced (by decide) fun _ _ => DerivesLiteral.spaced)

private theorem DerivesLength.spaced {tokens : List Token} {length : AstLength}
    (derives : DerivesLength tokens length) :
    Spaced tokens := by
  cases derives with
  | none => exact .nil
  | empty hopening hclosing => exact .other (by rw [hopening]; decide) (.single (by rw [hclosing]; decide))
  | literal hopening hlength hclosing =>
    exact .other (by rw [hopening]; decide) (.other (not_types hlength (by decide)) (.single (by rw [hclosing]; decide)))

private theorem DerivesDeclarator.spaced {tokens : List Token} {declarator : AstDeclarator}
    (derives : DerivesDeclarator tokens declarator) : Spaced tokens := by
  cases derives with
  | plain hname hlength => exact .other (by rw [hname]; decide) hlength.spaced
  | initialized hname hlength hequals hinitializer =>
    exact .other (by rw [hname]; decide) (hlength.spaced.append (.other (by rw [hequals]; decide) hinitializer.spaced))

/-- A type before declarators. -/
private theorem spaced_declarators {type : Token} {tokens : List Token} {declarators : List AstDeclarator}
    (separated : Separated DerivesDeclarator semicolon tokens declarators) : Spaced (type :: tokens) := by
  have spaced := separated.spaced (by decide) fun _ _ => DerivesDeclarator.spaced
  obtain ⟨name, second, last, rfl, hname, _, other⟩ := separated_declarators_head separated
  exact .typed hname other spaced.tail.tail

private theorem DerivesField.spaced {tokens : List Token} {field : AstField} (derives : DerivesField tokens field) :
    Spaced tokens := by
  cases derives with
  | ordinary _ hdeclarators => exact spaced_declarators hdeclarators
  | constant hkeyword _ hdeclarators => exact .other (by rw [hkeyword]; decide) (spaced_declarators hdeclarators)

private theorem DerivesLocation.spaced {tokens : List Token} {location : AstLocation}
    (derives : DerivesLocation tokens location) :
    Spaced tokens := by
  cases derives with
  | scalar hname => exact .single (by rw [hname]; decide)
  | element hname hopening operand hclosing =>
    exact .other (by rw [hname]; decide) (.other (by rw [hopening]; decide)
      (operand.spaced.append (.single (by rw [hclosing]; decide))))

private theorem DerivesCall.spaced {tokens : List Token} {call : AstCall} (derives : DerivesCall tokens call) :
    Spaced tokens := by
  cases derives with
  | empty hname hopening hclosing =>
    exact .other (by rw [hname]; decide) (.other (by rw [hopening]; decide) (.single (by rw [hclosing]; decide)))
  | arguments hname hopening operands =>
    exact .other (by rw [hname]; decide) (.other (by rw [hopening]; decide) operands.spaced)

private theorem DerivesAssignment.spaced {tokens : List Token} {assignment : AstAssignment}
    (derives : DerivesAssignment tokens assignment) : Spaced tokens := by
  cases derives with
  | assign hlocation hoperator hexpression =>
    exact hlocation.spaced.append (.other (not_types hoperator (by decide)) hexpression.spaced)
  | increment hlocation hoperator => exact hlocation.spaced.append (.single (not_types hoperator (by decide)))

private theorem DerivesForUpdate.spaced {tokens : List Token} {update : AstForUpdate}
    (derives : DerivesForUpdate tokens update) :
    Spaced tokens := by
  cases derives with
  | methodCall hcall => exact hcall.spaced
  | assignment hassignment => exact hassignment.spaced

private theorem DerivesCondition.spaced {keyword : TokenType} {tokens : List Token} {condition : AstExpression}
    (other : keyword ∉ TYPES) (derives : DerivesCondition keyword tokens condition) : Spaced tokens := by
  obtain ⟨hfirst, hopening, hcondition, hclosing⟩ := derives
  exact .other (by rwa [hfirst]) (.other (by rw [hopening]; decide)
    (hcondition.spaced.append (.single (by rw [hclosing]; decide))))

private theorem DerivesFor.spaced {tokens : List Token} {name : Token} {initial condition : AstExpression}
    {update : AstForUpdate}
    (derives : DerivesFor tokens name initial condition update) : Spaced tokens := by
  obtain ⟨hkeyword, hopening, hname, hequals, hinitial, hfirst, hcondition, hsecond, hupdate, hclosing⟩ := derives
  exact .other (by rw [hkeyword]; decide) (.other (by rw [hopening]; decide) (.other (by rw [hname]; decide)
    (.other (by rw [hequals]; decide) (hinitial.spaced.append (.other (by rw [hfirst]; decide)
      (hcondition.spaced.append (.other (by rw [hsecond]; decide)
        (hupdate.spaced.append (.single (by rw [hclosing]; decide))))))))))

mutual

private theorem DerivesStatement.spaced {tokens : List Token} {statement : AstStatement} :
    DerivesStatement tokens statement → Spaced tokens
  | .assignment hassignment hclosing => hassignment.spaced.append (.single (by rw [hclosing]; decide))
  | .methodCall hcall hclosing => hcall.spaced.append (.single (by rw [hclosing]; decide))
  | .ifStatement hcondition hblock => (hcondition.spaced (by decide)).append hblock.spaced
  | .ifElseStatement hcondition hblock hkeyword helse =>
    (hcondition.spaced (by decide)).append (hblock.spaced.append (.other (by rw [hkeyword]; decide) helse.spaced))
  | .forStatement hfor hblock => hfor.spaced.append hblock.spaced
  | .whileStatement hcondition hblock => (hcondition.spaced (by decide)).append hblock.spaced
  | .returnStatement hkeyword hclosing => .other (by rw [hkeyword]; decide) (.single (by rw [hclosing]; decide))
  | .returnExpression hkeyword hexpression hclosing =>
    .other (by rw [hkeyword]; decide) (hexpression.spaced.append (.single (by rw [hclosing]; decide)))
  | .breakStatement hkeyword hclosing => .other (by rw [hkeyword]; decide) (.single (by rw [hclosing]; decide))
  | .continueStatement hkeyword hclosing => .other (by rw [hkeyword]; decide) (.single (by rw [hclosing]; decide))

private theorem DerivesBlock.spaced {tokens : List Token} {block : AstBlock} : DerivesBlock tokens block → Spaced tokens
  | .mk hopening hfields hstatements hclosing =>
    .other (by rw [hopening]; decide) ((hfields.spaced fun _ _ => DerivesField.spaced).append
      (hstatements.spaced.append (.single (by rw [hclosing]; decide))))

private theorem DerivesStatements.spaced {tokens : List Token} {statements : AstStatements} :
    DerivesStatements tokens statements → Spaced tokens
  | .nil => .nil
  | .cons hstatement hstatements => hstatement.spaced.append hstatements.spaced

end

private theorem DerivesParameters.spaced {tokens : List Token} {parameters : List AstParameter}
    (derives : DerivesParameters False tokens parameters) : Spaced tokens := by
  induction derives with
  | last _ hname hclosing => exact .typed hname (by rw [hclosing]; decide) .nil
  | comma _ hname hseparator _ ih => exact .typed hname (by rw [hseparator]; decide) ih
  | missing hmissing => exact hmissing.elim

private theorem DerivesMethod.spaced {tokens : List Token} {method : AstMethod}
    (derives : DerivesMethod False tokens method) :
    Spaced tokens := by
  cases derives with
  | empty _ hname hopening hclosing hblock =>
    exact .typed hname (by rw [hopening]; decide) (.other (by rw [hclosing]; decide) hblock.spaced)
  | parameters _ hname hopening hparameters hblock =>
    exact .typed hname (by rw [hopening]; decide) (hparameters.spaced.append hblock.spaced)

private theorem DerivesProgram.spaced {tokens : List Token} {program : AstProgram}
    (derives : DerivesProgram False tokens program) :
    Spaced tokens := by
  obtain ⟨himports, hfields, hmethods⟩ := derives
  refine (himports.spaced fun _ _ derives => ?_).append ((hfields.spaced fun _ _ => DerivesField.spaced).append
    (hmethods.spaced fun _ _ => DerivesMethod.spaced))
  obtain ⟨hkeyword, hname, hclosing⟩ := derives
  exact .other (by rw [hkeyword]; decide) (.other (by rw [hname]; decide) (.single (by rw [hclosing]; decide)))

/-- Parameters are derived with each comma, or one is missing. -/
private theorem DerivesParameters.strict {tokens : List Token} {parameters : List AstParameter}
    (derives : DerivesParameters True tokens parameters) :
    DerivesParameters False tokens parameters ∨ MissingComma tokens := by
  induction derives with
  | last htype hname hclosing => exact Or.inl (.last htype hname hclosing)
  | @comma type name separator rest _ htype hname hseparator _ ih =>
    rcases ih with strict | missing
    · exact Or.inl (.comma htype hname hseparator strict)
    · refine Or.inr ?_
      simpa using missing.append [type, name, separator] []
  | @missing type name rest _ _ htype hname others _ =>
    obtain ⟨next, last, rfl, hnext⟩ := others.head
    exact Or.inr ⟨[], type, name, next, last, rfl, htype, hname, hnext⟩

private theorem DerivesMethod.strict {tokens : List Token} {method : AstMethod}
    (derives : DerivesMethod True tokens method) :
    DerivesMethod False tokens method ∨ MissingComma tokens := by
  cases derives with
  | empty htype hname hopening hclosing hblock => exact Or.inl (.empty htype hname hopening hclosing hblock)
  | @parameters type name opening _ rest _ _ htype hname hopening hparameters hblock =>
    rcases hparameters.strict with strict | missing
    · exact Or.inl (.parameters htype hname hopening strict hblock)
    · refine Or.inr ?_
      simpa using missing.append [type, name, opening] rest

private theorem repeated_strict {tokens : List Token} {methods : List AstMethod}
    (repeated : Repeated (DerivesMethod True) tokens methods) :
    Repeated (DerivesMethod False) tokens methods ∨ MissingComma tokens := by
  induction repeated with
  | nil => exact Or.inl .nil
  | @cons tokens rest _ _ mem _ ih =>
    rcases mem.strict with strict | missing
    · rcases ih with stricts | missing
      · exact Or.inl (.cons strict stricts)
      · refine Or.inr ?_
        simpa using missing.append tokens []
    · exact Or.inr (missing.append [] rest)

private theorem DerivesProgram.strict {tokens : List Token} {program : AstProgram}
    (derives : DerivesProgram True tokens program) :
    DerivesProgram False tokens program ∨ MissingComma tokens := by
  obtain @⟨imports, fields, methods, _, _, _, himports, hfields, hmethods⟩ := derives
  rcases repeated_strict hmethods with strict | missing
  · exact Or.inl ⟨himports, hfields, strict⟩
  · refine Or.inr ?_
    simpa using missing.append (imports ++ fields) []

theorem Repeated.mono {α : Type} {derives other : List Token → α → Prop} (le : ∀ tokens item, derives tokens item → other tokens item)
    {tokens : List Token} {items : List α} (repeated : Repeated derives tokens items) : Repeated other tokens items := by
  induction repeated with
  | nil => exact .nil
  | cons mem _ ih => exact .cons (le _ _ mem) ih

/-- A derived program is one that may lack commas. -/
theorem DerivesProgram.loose {tokens : List Token} {program : AstProgram} (derives : DerivesProgram False tokens program) :
    DerivesProgram True tokens program := by
  obtain ⟨himports, hfields, hmethods⟩ := derives
  refine ⟨himports, hfields, hmethods.mono fun tokens method derives => ?_⟩
  cases derives with
  | empty htype hname hopening hclosing hblock => exact .empty htype hname hopening hclosing hblock
  | parameters htype hname hopening hparameters hblock =>
    refine .parameters htype hname hopening ?_ hblock
    clear hblock
    induction hparameters with
    | last htype hname hclosing => exact .last htype hname hclosing
    | comma htype hname hseparator _ ih => exact .comma htype hname hseparator ih
    | missing hmissing => exact hmissing.elim

/-- `parser_parse` accepts the programs of the grammar and no other list, but for those in which nothing is amiss but
a comma between two parameters. -/
theorem parserParse_accepts_iff {n : Nat} {tokens : List Token} (nonempty : tokens ≠ [])
    (bound : 2 * tokens.length + 2 ≤ n) :
    ((parserParse n tokens).1 = 0 ↔ ∃ program, DerivesProgram False tokens program) ↔
      ¬(MissingComma tokens ∧ ∃ program, DerivesProgram True tokens program) := by
  rw [parserParse_iff nonempty bound]
  constructor
  · rintro same ⟨missing, derivable⟩
    obtain ⟨program, derives⟩ := same.mp derivable
    exact derives.spaced.not_missingComma missing
  · intro notMissing
    constructor
    · rintro ⟨program, derives⟩
      rcases derives.strict with strict | missing
      · exact ⟨program, strict⟩
      · exact absurd ⟨missing, program, derives⟩ notMissing
    · rintro ⟨program, derives⟩
      exact ⟨program, derives.loose⟩

/-- `void f(int a int b) {}` -/
def missingCommaTokens : List Token :=
  [⟨keywordVoid, 0, 4⟩, ⟨identifier, 5, 1⟩, ⟨openParenthesis, 6, 1⟩, ⟨keywordInt, 7, 3⟩, ⟨identifier, 11, 1⟩,
    ⟨keywordInt, 13, 3⟩, ⟨identifier, 17, 1⟩, ⟨closeParenthesis, 18, 1⟩, ⟨openCurlyBracket, 20, 1⟩,
    ⟨closeCurlyBracket, 21, 1⟩]

/-- The list is no program of the grammar, and is accepted. -/
theorem missingCommaTokens_accepted :
    ¬((parserParse 22 missingCommaTokens).1 = 0 ↔ ∃ program, DerivesProgram False missingCommaTokens program) := by
  intro same
  have accepted : (parserParse 22 missingCommaTokens).1 = 0 := by decide +kernel
  obtain ⟨program, derives⟩ := same.mp accepted
  refine derives.spaced.not_missingComma ⟨missingCommaTokens.take 3, ⟨keywordInt, 7, 3⟩, ⟨identifier, 11, 1⟩,
    ⟨keywordInt, 13, 3⟩, missingCommaTokens.drop 6, rfl, by decide, rfl, by decide⟩

/-- `import f;` -/
theorem parserParse_accepts_iff_import :
    ((parserParse 8 [⟨keywordImport, 0, 6⟩, ⟨identifier, 7, 1⟩, ⟨semicolon, 8, 1⟩]).1 = 0 ↔
      ∃ program, DerivesProgram False [⟨keywordImport, 0, 6⟩, ⟨identifier, 7, 1⟩, ⟨semicolon, 8, 1⟩] program) := by
  refine (parserParse_accepts_iff (List.cons_ne_nil _ _) (by decide)).mpr ?_
  rintro ⟨missing, -⟩
  exact (Spaced.other (by decide) (.other (by decide) (.single (by decide)))).not_missingComma missing

end Roast
