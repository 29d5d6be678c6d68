import Roast.Parser.Grammar

/-! What `find_binary_operator_indices` finds: the operators outside brackets of a derivation, and of a list that
need not be one. -/
namespace Roast
open TokenType

def shiftIndex (i : Nat) (index : Nat × TokenType) : Nat × TokenType := (index.1 + i, index.2)

/-- The types after which an operand begins: a `-` there is no binary operator. -/
def StartsOperand (previous : Option TokenType) : Prop := ∀ type ∈ previous, type ∈ BINARY_OPERATORS ∨ type = .not

def EndsOperand (last : TokenType) : Prop := last ∉ BINARY_OPERATORS ∧ last ≠ .not

private theorem isBinaryOperator_sub (previous : TokenType) :
    isBinaryOperator (some previous) sub = !(BINARY_OPERATORS.contains previous || previous == .not) := rfl

private theorem isBinaryOperator_of_ne {previous : Option TokenType} {type : TokenType} (other : type ≠ sub) :
    isBinaryOperator previous type = BINARY_OPERATORS.contains type := by
  cases type <;> first | rfl | exact absurd rfl other

private theorem isBinaryOperator_sub_start {previous : Option TokenType} (start : StartsOperand previous) :
    isBinaryOperator previous sub = false := by
  cases previous with
  | none => rfl
  | some type =>
    rw [isBinaryOperator_sub]
    rcases start type rfl with mem | rfl
    · simp [mem]
    · rfl

private theorem isBinaryOperator_end {last type : TokenType} (ends : EndsOperand last) :
    isBinaryOperator (some last) type = BINARY_OPERATORS.contains type := by
  by_cases minus : type = sub
  · subst minus
    have operator : sub ∈ BINARY_OPERATORS := by decide
    simp [isBinaryOperator_sub, ends.1, ends.2, operator]
  · exact isBinaryOperator_of_ne minus

/-- A scan that begins after an operator finds what a scan from index 0 finds. -/
private theorem isBinaryOperator_start {previous : TokenType} (operator : previous ∈ BINARY_OPERATORS)
    (type : TokenType) :
    isBinaryOperator (some previous) type = isBinaryOperator none type := by
  by_cases minus : type = sub
  · subst minus
    rw [isBinaryOperator_sub, List.contains_iff_mem.mpr operator]
    rfl
  · rw [isBinaryOperator_of_ne minus, isBinaryOperator_of_ne minus]

theorem isBinaryOperator_mem {previous : Option TokenType} {type : TokenType}
    (binary : isBinaryOperator previous type = true) : type ∈ BINARY_OPERATORS := by
  by_cases minus : type = sub
  · subst minus
    decide
  · rw [isBinaryOperator_of_ne minus] at binary
    exact List.contains_iff_mem.mp binary

private theorem depthAfter_binary {type : TokenType} (operator : type ∈ BINARY_OPERATORS) (depth : Nat) :
    depthAfter depth type = depth := by
  cases type <;> first | rfl | exact absurd operator (by decide)

private theorem isTerminator_binary {type : TokenType} (operator : type ∈ BINARY_OPERATORS) :
    isTerminator type = false := by
  revert operator
  cases type <;> decide

private theorem findOperators_cons (depth i : Nat) (previous : Option TokenType) (token : Token) (rest : List Token) :
    findOperators depth i previous (token :: rest) =
      if depth = 0 ∧ isTerminator token.type then []
      else if depthAfter depth token.type = 0 ∧ isBinaryOperator previous token.type then
        (i, token.type) :: findOperators (depthAfter depth token.type) (i + 1) (some token.type) rest
      else findOperators (depthAfter depth token.type) (i + 1) (some token.type) rest := rfl

section
variable {depth i : Nat} {previous : Option TokenType} {token : Token} {rest : List Token}

/-- A token that is no terminator and no operator is skipped. -/
private theorem findOperators_skip (inside : depth = 0 → isTerminator token.type = false)
    (other : depthAfter depth token.type = 0 → isBinaryOperator previous token.type = false) :
    findOperators depth i previous (token :: rest) =
      findOperators (depthAfter depth token.type) (i + 1) (some token.type) rest := by
  rw [findOperators_cons, if_neg, if_neg]
  · rintro ⟨outside, binary⟩
    rw [other outside] at binary
    cases binary
  · rintro ⟨outside, terminator⟩
    rw [inside outside] at terminator
    cases terminator

private theorem findOperators_operand (mem : token.type ∈ BOOL_LITERALS ++ INT_LITERALS ++
      [charLiteral, stringLiteral, identifier, keywordLen, .not]) :
    findOperators depth i previous (token :: rest) = findOperators depth (i + 1) (some token.type) rest := by
  have terminator : isTerminator token.type = false := by
    revert mem
    cases token.type <;> decide
  have same : depthAfter depth token.type = depth := by
    cases type : token.type <;> first | rfl | exact absurd mem (by rw [type]; decide)
  have minus : token.type ≠ sub := by
    intro type
    exact absurd mem (by rw [type]; decide)
  have operator : BINARY_OPERATORS.contains token.type = false := by
    revert mem
    cases token.type <;> decide
  rw [findOperators_skip (fun _ => terminator) fun _ => (isBinaryOperator_of_ne minus).trans operator, same]

private theorem findOperators_open (mem : token.type ∈ [openParenthesis, openSquareBracket]) :
    findOperators depth i previous (token :: rest) = findOperators (depth + 1) (i + 1) (some token.type) rest := by
  have deeper : depthAfter depth token.type = depth + 1 := by
    simp only [List.mem_cons, List.not_mem_nil, or_false] at mem
    rcases mem with type | type <;> rw [type] <;> rfl
  have terminator : isTerminator token.type = false := by
    revert mem
    cases token.type <;> decide
  rw [findOperators_skip (fun _ => terminator) fun outside => absurd (deeper.symm.trans outside) (Nat.succ_ne_zero depth), deeper]

private theorem findOperators_close (mem : token.type ∈ [closeParenthesis, closeSquareBracket]) :
    findOperators (depth + 1) i previous (token :: rest) = findOperators depth (i + 1) (some token.type) rest := by
  have shallower : depthAfter (depth + 1) token.type = depth := by
    simp only [List.mem_cons, List.not_mem_nil, or_false] at mem
    rcases mem with type | type <;> rw [type] <;> rfl
  have minus : token.type ≠ sub := by
    intro type
    exact absurd mem (by rw [type]; decide)
  have operator : BINARY_OPERATORS.contains token.type = false := by
    revert mem
    cases token.type <;> decide
  rw [findOperators_skip (fun outside => absurd outside (Nat.succ_ne_zero depth))
    fun _ => (isBinaryOperator_of_ne minus).trans operator, shallower]

private theorem findOperators_comma (type : token.type = comma) :
    findOperators (depth + 1) i previous (token :: rest) = findOperators (depth + 1) (i + 1) (some token.type) rest := by
  have same : depthAfter (depth + 1) token.type = depth + 1 := by
    rw [type]
    rfl
  rw [findOperators_skip (fun outside => absurd outside (Nat.succ_ne_zero depth))
    fun outside => absurd (same.symm.trans outside) (Nat.succ_ne_zero depth), same]

private theorem findOperators_binary {last : TokenType} (ends : EndsOperand last)
    (operator : token.type ∈ BINARY_OPERATORS) :
    findOperators depth i (some last) (token :: rest) =
      (if depth = 0 then [(i, token.type)] else []) ++ findOperators depth (i + 1) (some token.type) rest := by
  by_cases outside : depth = 0 <;>
    simp [findOperators_cons, isTerminator_binary operator, depthAfter_binary operator, isBinaryOperator_end ends,
      operator, outside]

private theorem findOperators_minus (type : token.type = sub) (start : depth = 0 → StartsOperand previous) :
    findOperators depth i previous (token :: rest) = findOperators depth (i + 1) (some token.type) rest := by
  have same : depthAfter depth token.type = depth := by
    rw [type]
    rfl
  rw [findOperators_skip, same]
  · intro _
    rw [type]
    rfl
  · intro outside
    rw [same] at outside
    rw [type]
    exact isBinaryOperator_sub_start (start outside)

theorem findOperators_terminator (terminator : isTerminator token.type = true) :
    findOperators 0 i previous (token :: rest) = [] := by
  rw [findOperators_cons, if_pos ⟨rfl, terminator⟩]

end

def FindsOperators (tokens : List Token) (indices : List (Nat × TokenType)) : Prop :=
  ∃ last, EndsOperand last ∧ ∀ depth i previous rest, (depth = 0 → StartsOperand previous) →
    findOperators depth i previous (tokens ++ rest) =
      (if depth = 0 then indices.map (shiftIndex i) else []) ++
        findOperators depth (i + tokens.length) (some last) rest

private theorem endsOperand_close {type : TokenType} (mem : type ∈ [closeParenthesis, closeSquareBracket]) :
    EndsOperand type := by
  simp only [List.mem_cons, List.not_mem_nil, or_false] at mem
  rcases mem with rfl | rfl <;> simp [EndsOperand, BINARY_OPERATORS]

private theorem endsOperand_literal {type : TokenType} (mem : type ∈ BOOL_LITERALS ++ INT_LITERALS ++ [charLiteral]) :
    EndsOperand type := by
  simp only [BOOL_LITERALS, INT_LITERALS, List.cons_append, List.nil_append, List.mem_cons, List.not_mem_nil,
    or_false] at mem
  rcases mem with rfl | rfl | rfl | rfl | rfl <;> simp [EndsOperand, BINARY_OPERATORS]

/-- The operator between two operands is found with those inside them. -/
theorem FindsOperators.binary {first second : List Token} {operator : Token} {left right : List (Nat × TokenType)}
    (hleft : FindsOperators first left) (hright : FindsOperators second right)
    (hoperator : operator.type ∈ BINARY_OPERATORS) :
    FindsOperators (first ++ operator :: second)
      (left ++ (first.length, operator.type) :: right.map (shiftIndex (first.length + 1))) := by
  obtain ⟨last, ends, finds⟩ := hleft
  obtain ⟨last', ends', finds'⟩ := hright
  refine ⟨last', ends', fun depth i previous rest start => ?_⟩
  rw [List.append_assoc, finds depth i previous _ start, List.cons_append, findOperators_binary ends hoperator,
    finds' depth (i + first.length + 1) (some operator.type) rest fun _ type mem => by
      obtain rfl := Option.some.inj mem
      exact Or.inl hoperator]
  have lengths : i + first.length + 1 + second.length = i + (first ++ operator :: second).length := by simp; omega
  rw [lengths]
  by_cases outside : depth = 0
  · have shifts : shiftIndex i ∘ shiftIndex (first.length + 1) = shiftIndex (i + first.length + 1) := by
      funext index
      simp only [Function.comp_apply, shiftIndex]
      congr 1
      omega
    simp [outside, shifts, shiftIndex, Nat.add_comm]
  · simp [outside]

mutual

/-- No operator is found in an operand. -/
theorem DerivesUnary.findsOperators {tokens : List Token} {expression : AstExpression} :
    DerivesUnary tokens expression → FindsOperators tokens []
  | @DerivesUnary.len _ _ _ closing hkeyword hopening hname hclosing => by
    refine ⟨closing.type, endsOperand_close (by simp [hclosing]), fun depth i previous rest start => ?_⟩
    simp only [List.cons_append, List.nil_append]
    rw [findOperators_operand (by simp [hkeyword]), findOperators_open (by simp [hopening]),
      findOperators_operand (by simp [hname]), findOperators_close (by simp [hclosing])]
    simp
  | .not hoperator operand => by
    obtain ⟨last, ends, finds⟩ := operand.findsOperators
    refine ⟨last, ends, fun depth i previous rest start => ?_⟩
    rw [List.cons_append, findOperators_operand (by simp [hoperator]), finds _ _ _ _ fun _ type mem => by
      obtain rfl := Option.some.inj mem
      exact Or.inr hoperator]
    simp [Nat.add_comm, Nat.add_left_comm]
  | .negate hoperator operand _ => by
    obtain ⟨last, ends, finds⟩ := operand.findsOperators
    refine ⟨last, ends, fun depth i previous rest start => ?_⟩
    rw [List.cons_append, findOperators_minus hoperator start, finds _ _ _ _ fun _ type mem => by
      obtain rfl := Option.some.inj mem
      exact Or.inl (hoperator ▸ by decide)]
    simp [Nat.add_comm, Nat.add_left_comm]
  | @DerivesUnary.literal value kind => by
    refine ⟨value.type, endsOperand_literal kind, fun depth i previous rest start => ?_⟩
    rw [List.cons_append, findOperators_operand (by
      simp only [List.mem_append, List.mem_cons] at kind ⊢
      tauto)]
    simp
  | @DerivesUnary.negatedLiteral _ value sign kind => by
    refine ⟨value.type, endsOperand_literal (by simp [kind]), fun depth i previous rest start => ?_⟩
    rw [List.cons_append, findOperators_minus sign start, List.cons_append, findOperators_operand (by simp [kind])]
    simp
  | @DerivesUnary.call _ _ closing hname hopening hclosing => by
    refine ⟨closing.type, endsOperand_close (by simp [hclosing]), fun depth i previous rest start => ?_⟩
    simp only [List.cons_append, List.nil_append]
    rw [findOperators_operand (by simp [hname]), findOperators_open (by simp [hopening]),
      findOperators_close (by simp [hclosing])]
    simp
  | .callWith hname hopening operands => by
    refine ⟨closeParenthesis, endsOperand_close (by simp), fun depth i previous rest start => ?_⟩
    rw [List.cons_append, findOperators_operand (by simp [hname]), List.cons_append,
      findOperators_open (by simp [hopening]), operands.findOperators]
    simp [Nat.add_comm, Nat.add_left_comm]
  | @DerivesUnary.scalar name hname => by
    refine ⟨name.type, by simp [EndsOperand, hname, BINARY_OPERATORS], fun depth i previous rest start => ?_⟩
    rw [List.cons_append, findOperators_operand (by simp [hname])]
    simp
  | @DerivesUnary.element _ _ closing _ _ hname hopening operand hclosing => by
    obtain ⟨_, _, last, _, finds⟩ := operand.findsOperators
    refine ⟨closing.type, endsOperand_close (by simp [hclosing]), fun depth i previous rest start => ?_⟩
    rw [List.cons_append, findOperators_operand (by simp [hname]), List.cons_append,
      findOperators_open (by simp [hopening]), List.append_assoc, finds _ _ _ _ (by omega), List.cons_append,
      findOperators_close (by simp [hclosing])]
    simp [Nat.add_comm, Nat.add_left_comm]
  | @DerivesUnary.parenthesis _ closing _ _ hopening operand hclosing => by
    obtain ⟨_, _, last, _, finds⟩ := operand.findsOperators
    refine ⟨closing.type, endsOperand_close (by simp [hclosing]), fun depth i previous rest start => ?_⟩
    rw [List.cons_append, findOperators_open (by simp [hopening]), List.append_assoc, finds _ _ _ _ (by omega),
      List.cons_append, findOperators_close (by simp [hclosing])]
    simp [Nat.add_comm, Nat.add_left_comm]

/-- The operators outside brackets are found, none below the level. -/
theorem DerivesBinary.findsOperators {level : Nat} {tokens : List Token} {expression : AstExpression} :
    DerivesBinary level tokens expression →
      ∃ indices, (∀ index ∈ indices, level ≤ precedence index.2) ∧ FindsOperators tokens indices
  | .unary operand => ⟨[], by simp, operand.findsOperators⟩
  | @DerivesBinary.binary level operator first _ _ _ hoperator hlevel hleft hright => by
    obtain ⟨left, above, findsLeft⟩ := hleft.findsOperators
    obtain ⟨right, above', findsRight⟩ := hright.findsOperators
    refine ⟨_, ?_, findsLeft.binary findsRight hoperator⟩
    intro index mem
    rcases List.mem_append.mp mem with mem | mem
    · exact hlevel.trans (above index mem)
    · rcases List.mem_cons.mp mem with rfl | mem
      · exact hlevel
      · obtain ⟨found, among, rfl⟩ := List.mem_map.mp mem
        have := above' found among
        simp only [shiftIndex]
        omega

theorem DerivesArguments.findOperators {tokens : List Token} {arguments : AstArguments} {depth i : Nat}
    {previous : Option TokenType} {rest : List Token} :
    DerivesArguments tokens arguments → Roast.findOperators (depth + 1) i previous (tokens ++ rest) =
      Roast.findOperators depth (i + tokens.length) (some closeParenthesis) rest
  | .lastString hstring hclosing => by
    simp only [List.cons_append, List.nil_append]
    rw [findOperators_operand (by simp [hstring]), findOperators_close (by simp [hclosing])]
    simp [hclosing]
  | .lastExpression operand hclosing => by
    obtain ⟨_, _, last, _, finds⟩ := operand.findsOperators
    rw [List.append_assoc, finds _ _ _ _ (by omega), List.cons_append, findOperators_close (by simp [hclosing])]
    simp [hclosing, Nat.add_assoc]
  | .string hstring hseparator operands => by
    rw [List.cons_append, findOperators_operand (by simp [hstring]), List.cons_append, findOperators_comma hseparator,
      operands.findOperators]
    simp [Nat.add_comm, Nat.add_left_comm]
  | .expression operand hseparator operands => by
    obtain ⟨_, _, last, _, finds⟩ := operand.findsOperators
    rw [List.append_assoc, finds _ _ _ _ (by omega), List.cons_append, findOperators_comma hseparator,
      operands.findOperators]
    simp [Nat.add_assoc, Nat.add_comm 1]

end

theorem findOperators_append (depth i : Nat) (previous : Option TokenType) (first second : List Token) :
    findOperators depth i previous first ⊆ findOperators depth i previous (first ++ second) := by
  induction first generalizing depth i previous with
  | nil => simp [findOperators]
  | cons token rest ih =>
    simp only [List.cons_append, findOperators]
    split
    · simp
    · split
      · exact List.cons_subset_cons _ (ih _ _ _)
      · exact ih _ _ _

theorem findOperators_shift (depth i j : Nat) (previous : Option TokenType) (tokens : List Token) :
    findOperators depth (i + j) previous tokens = (findOperators depth i previous tokens).map (shiftIndex j) := by
  induction tokens generalizing depth i previous with
  | nil => rfl
  | cons token rest ih =>
    have next := ih (depthAfter depth token.type) (i + 1) (some token.type)
    rw [findOperators_cons, findOperators_cons]
    rw [show i + j + 1 = i + 1 + j by omega, next]
    split
    · rfl
    · split <;> rfl

theorem findOperators_start {type : TokenType} (operator : type ∈ BINARY_OPERATORS) (depth i : Nat) (tokens : List Token) :
    findOperators depth i (some type) tokens = findOperators depth i none tokens := by
  cases tokens with
  | nil => rfl
  | cons token rest => simp only [findOperators_cons, isBinaryOperator_start operator]

private theorem le_findOperators {depth i : Nat} {previous : Option TokenType} {tokens : List Token}
    {index : Nat × TokenType}
    (mem : index ∈ findOperators depth i previous tokens) : i ≤ index.1 := by
  rw [show findOperators depth i previous tokens = findOperators depth (0 + i) previous tokens by rw [Nat.zero_add],
    findOperators_shift] at mem
  obtain ⟨found, _, rfl⟩ := List.mem_map.mp mem
  exact Nat.le_add_left i found.1

/-- Behind an operator that was found, the rest of the scan is a scan of the tokens after it. -/
theorem findOperators_split {depth i index : Nat} {previous : Option TokenType} {tokens : List Token}
    {before after : List (Nat × TokenType)} {type : TokenType}
    (found : findOperators depth i previous tokens = before ++ (i + index, type) :: after) :
    type ∈ BINARY_OPERATORS ∧ ∃ token, tokens[index]? = some token ∧ token.type = type ∧
      after = findOperators 0 (i + index + 1) (some type) (tokens.drop (index + 1)) := by
  induction tokens generalizing depth i index previous before with
  | nil => cases before <;> cases found
  | cons token rest ih =>
    rw [findOperators_cons] at found
    split at found
    · simp at found
    -- the operator is not the token at `i` itself
    · have later : ∀ before, findOperators (depthAfter depth token.type) (i + 1) (some token.type) rest =
          before ++ (i + index, type) :: after → type ∈ BINARY_OPERATORS ∧ ∃ operator,
          (token :: rest)[index]? = some operator ∧ operator.type = type ∧
          after = findOperators 0 (i + index + 1) (some type) ((token :: rest).drop (index + 1)) := by
        intro before found
        have beyond := le_findOperators (found ▸ List.mem_append_right before List.mem_cons_self)
        obtain ⟨next, rfl⟩ : ∃ next, index = next + 1 := ⟨index - 1, by simp only at beyond; omega⟩
        rw [show i + (next + 1) = i + 1 + next by omega] at found ⊢
        simpa using ih found
      split at found
      · rename_i binary
        cases before with
        | nil =>
          simp only [List.nil_append, List.cons.injEq, Prod.mk.injEq] at found
          obtain rfl : index = 0 := by omega
          obtain ⟨⟨_, rfl⟩, rfl⟩ := found
          exact ⟨isBinaryOperator_mem binary.2, token, rfl, rfl, by simp [binary.1]⟩
        | cons first before =>
          simp only [List.cons_append, List.cons.injEq] at found
          exact later before found.2
      · exact later before found

/-- The scan keeps the last of the lowest precedences. -/
private theorem lowestPrecedence_spec (indices : List (Nat × TokenType)) (lowest : Nat × Nat) :
    (lowestPrecedence indices lowest = lowest ∧ ∀ index ∈ indices, lowest.2 < precedence index.2) ∨
    ∃ before index after, indices = before ++ index :: after ∧
      lowestPrecedence indices lowest = (index.1, precedence index.2) ∧ precedence index.2 ≤ lowest.2 ∧
      (∀ other ∈ before, precedence index.2 ≤ precedence other.2) ∧
      ∀ other ∈ after, precedence index.2 < precedence other.2 := by
  induction indices generalizing lowest with
  | nil => exact Or.inl ⟨rfl, by simp⟩
  | cons first rest ih =>
    simp only [lowestPrecedence]
    by_cases lower : precedence first.2 ≤ lowest.2
    · rw [if_pos lower]
      refine Or.inr ?_
      rcases ih (first.1, precedence first.2) with ⟨same, above⟩ | ⟨before, index, after, rfl, same, le, above, above'⟩
      · exact ⟨[], first, rest, rfl, same, lower, by simp, above⟩
      · refine ⟨first :: before, index, after, rfl, same, le.trans lower, ?_, above'⟩
        intro other mem
        rcases List.mem_cons.mp mem with rfl | mem
        · exact le
        · exact above other mem
    · rw [if_neg lower]
      rcases ih lowest with ⟨same, above⟩ | ⟨before, index, after, rfl, same, le, above, above'⟩
      · refine Or.inl ⟨same, ?_⟩
        intro other mem
        rcases List.mem_cons.mp mem with rfl | mem
        · omega
        · exact above other mem
      · refine Or.inr ⟨first :: before, index, after, rfl, same, le, ?_, above'⟩
        intro other mem
        rcases List.mem_cons.mp mem with rfl | mem
        · omega
        · exact above other mem

private theorem precedence_le (type : TokenType) : precedence type ≤ 5 := by
  cases type <;> decide

/-- The last of the operators of lowest precedence. -/
theorem getLowestPrecedenceIndex_spec {indices : List (Nat × TokenType)} (nonempty : indices ≠ []) :
    ∃ before index after, indices = before ++ index :: after ∧ getLowestPrecedenceIndex indices = index.1 ∧
      (∀ other ∈ before, precedence index.2 ≤ precedence other.2) ∧
      ∀ other ∈ after, precedence index.2 < precedence other.2 := by
  rcases lowestPrecedence_spec indices (0, 2 ^ 32 - 1) with ⟨_, above⟩ | ⟨before, index, after, split, same, _, above⟩
  · obtain ⟨first, rest, rfl⟩ := List.exists_cons_of_ne_nil nonempty
    have := above first List.mem_cons_self
    have := precedence_le first.2
    omega
  · exact ⟨before, index, after, split, by rw [getLowestPrecedenceIndex, same], above⟩

private theorem lowestPrecedence_above {indices : List (Nat × TokenType)} {lowest : Nat × Nat}
    (above : ∀ other ∈ indices, lowest.2 < precedence other.2) : lowestPrecedence indices lowest = lowest := by
  induction indices with
  | nil => rfl
  | cons first rest ih =>
    have := above first List.mem_cons_self
    rw [lowestPrecedence, if_neg (by omega)]
    exact ih fun other mem => above other (List.mem_cons_of_mem first mem)

private theorem lowestPrecedence_eq {before after : List (Nat × TokenType)} {index : Nat × TokenType}
    {lowest : Nat × Nat}
    (le : precedence index.2 ≤ lowest.2) (above : ∀ other ∈ before, precedence index.2 ≤ precedence other.2)
    (above' : ∀ other ∈ after, precedence index.2 < precedence other.2) :
    lowestPrecedence (before ++ index :: after) lowest = (index.1, precedence index.2) := by
  induction before generalizing lowest with
  | nil =>
    rw [List.nil_append, lowestPrecedence, if_pos le]
    exact lowestPrecedence_above above'
  | cons first rest ih =>
    have first_le := above first List.mem_cons_self
    rw [List.cons_append, lowestPrecedence]
    refine ih ?_ fun other mem => above other (List.mem_cons_of_mem first mem)
    split
    · exact first_le
    · exact le

/-- An operator of lowest precedence that no later one shares is the one that is found. -/
theorem getLowestPrecedenceIndex_eq {before after : List (Nat × TokenType)} {index : Nat × TokenType}
    (above : ∀ other ∈ before, precedence index.2 ≤ precedence other.2)
    (above' : ∀ other ∈ after, precedence index.2 < precedence other.2) :
    getLowestPrecedenceIndex (before ++ index :: after) = index.1 := by
  have := precedence_le index.2
  rw [getLowestPrecedenceIndex, lowestPrecedence_eq (show precedence index.2 ≤ 2 ^ 32 - 1 by omega) above above']

end Roast
