import Roast.Semantics.Analyzed
import Roast.Assembly.LlirGenerator

/-! Integer literals: the number that `ir_int_literal_from_ast` makes of a text, and the word that `literal_to_int64`
makes of the number. -/
namespace Roast

def checkedDiv (dividend divisor : Word) : Option Word := if divisor = 0 then none else some (dividend / divisor)

def stringToIntCheckedLoop (maxValue base : Word) : List Char → Word → Word → Option Word
  | [], value, _ => some value
  | character :: rest, value, place => do
    let digit := characterToInt character
    let increment := digit * place
    if (← checkedDiv increment place) ≠ digit then return overflowMarker
    if value + increment < value then return overflowMarker
    let value := value + increment
    if value > maxValue then return overflowMarker
    if rest ≠ [] then
      if (← checkedDiv (place * base) place) ≠ base then return overflowMarker
      stringToIntCheckedLoop maxValue base rest value (place * base)
    else stringToIntCheckedLoop maxValue base rest value (place * base)

def irIntLiteralFromAstChecked (token : IntLiteralToken) (negate : Bool) : Option Word :=
  let maxValue := BitVec.ofNat 64 INT64_MAX + (if negate then 1 else 0)
  stringToIntCheckedLoop maxValue (if token.hex then 16 else 10) token.digits.reverse 0 1

/-- A place value that is not zero is followed by another one, unless the loop ends there. -/
private theorem stringToIntCheckedLoop_eq {maxValue base : Word} (nonzero : base ≠ 0) (characters : List Char)
    (value place : Word) (hplace : characters ≠ [] → place ≠ 0) :
    stringToIntCheckedLoop maxValue base characters value place =
      some (stringToIntLoop maxValue base characters value place) := by
  induction characters generalizing value place with
  | nil => rfl
  | cons character rest ih =>
    have divisor := hplace (List.cons_ne_nil _ _)
    have division (dividend : Word) : checkedDiv dividend place = some (dividend / place) := if_neg divisor
    rw [stringToIntCheckedLoop, stringToIntLoop]
    simp only [division, Option.bind_eq_bind, Option.bind_some]
    by_cases product : characterToInt character * place / place ≠ characterToInt character
    · simp [product]
    rw [if_neg product, if_neg product]
    by_cases wraps : value + characterToInt character * place < value
    · simp [wraps]
    rw [if_neg wraps, if_neg wraps]
    by_cases large : value + characterToInt character * place > maxValue
    · simp [large]
    rw [if_neg large, if_neg large]
    by_cases more : rest ≠ []
    · rw [if_pos more]
      by_cases carry : place * base / place ≠ base
      · rw [if_pos carry, if_pos ⟨more, carry⟩]
        rfl
      · have next : place * base ≠ 0 := by
          intro zero
          have quotient : place * base / place = base := not_not.mp carry
          rw [zero] at quotient
          exact nonzero (by simpa using quotient.symm)
        rw [if_neg carry, if_neg fun both => carry both.2, ih _ _ fun _ => next]
    · rw [if_neg more, if_neg fun both => more both.1, ih _ _ fun nonempty => absurd nonempty more]

/-- A number above the maximum is noticed. -/
private theorem stringToIntLoop_overflow (base : Nat) {maximum : Nat} (hbase : 1 < base) (small : base < 2 ^ 64)
    (hmaximum : maximum < 2 ^ 64) (characters : List Char)
    (digits : ∀ character ∈ characters, characterToInt character = BitVec.ofNat 64 (digitValue character) ∧
      digitValue character < 2 ^ 64)
    (value k : Nat) (place : base ^ k < 2 ^ 64) (below : value ≤ maximum)
    (range : maximum < value + base ^ k * Nat.ofDigits base (characters.map digitValue)) :
    stringToIntLoop (BitVec.ofNat 64 maximum) (BitVec.ofNat 64 base) characters (BitVec.ofNat 64 value)
        (BitVec.ofNat 64 (base ^ k)) = overflowMarker := by
  induction characters generalizing value k with
  | nil =>
    simp only [List.map_nil, Nat.ofDigits_nil, Nat.mul_zero] at range
    omega
  | cons character rest ih =>
    obtain ⟨value_eq, small_digit⟩ := digits character List.mem_cons_self
    have positive : 0 < base ^ k := Nat.pow_pos (by omega)
    rw [List.map_cons, Nat.ofDigits_cons, Nat.mul_add, ← Nat.mul_assoc, ← pow_succ] at range
    have product := mul_div_eq_iff positive place small_digit
    rw [Nat.mul_comm (base ^ k), BitVec.mul_comm] at product
    unfold stringToIntLoop
    simp only [value_eq]
    by_cases increment : digitValue character * base ^ k < 2 ^ 64
    · rw [if_neg (not_not.mpr (product.mpr increment)), ← BitVec.ofNat_mul, ← BitVec.ofNat_add]
      by_cases sum : value + digitValue character * base ^ k < 2 ^ 64
      · have grows : ¬ BitVec.ofNat 64 (value + digitValue character * base ^ k) < BitVec.ofNat 64 value := by
          rw [BitVec.lt_def, BitVec.toNat_ofNat, BitVec.toNat_ofNat, Nat.mod_eq_of_lt sum, Nat.mod_eq_of_lt (by omega)]
          omega
        rw [if_neg grows]
        by_cases fits : value + digitValue character * base ^ k ≤ maximum
        · have small_sum : ¬ BitVec.ofNat 64 (value + digitValue character * base ^ k) > BitVec.ofNat 64 maximum := by
            rw [gt_iff_lt, BitVec.lt_def, BitVec.toNat_ofNat, BitVec.toNat_ofNat, Nat.mod_eq_of_lt sum,
              Nat.mod_eq_of_lt hmaximum]
            omega
          rw [if_neg small_sum]
          have carry := mul_div_eq_iff positive place small
          have next : BitVec.ofNat 64 (base ^ k) * BitVec.ofNat 64 base = BitVec.ofNat 64 (base ^ (k + 1)) := by
            rw [← BitVec.ofNat_mul, pow_succ]
          rw [next, ← pow_succ] at carry
          rw [next]
          by_cases stop : rest ≠ [] ∧ BitVec.ofNat 64 (base ^ (k + 1)) / BitVec.ofNat 64 (base ^ k) ≠ BitVec.ofNat 64 base
          · rw [if_pos stop]
          · rw [if_neg stop]
            have nonempty : rest ≠ [] := by
              rintro rfl
              simp only [List.map_nil, Nat.ofDigits_nil, Nat.mul_zero] at range
              rw [Nat.mul_comm] at range
              omega
            have place' : base ^ (k + 1) < 2 ^ 64 := carry.mp (not_not.mp fun other => stop ⟨nonempty, other⟩)
            refine ih (fun c mem => digits c (List.mem_cons_of_mem _ mem)) _ _ place' fits ?_
            rw [Nat.mul_comm (digitValue character), Nat.add_assoc]
            exact range
        · have large : BitVec.ofNat 64 (value + digitValue character * base ^ k) > BitVec.ofNat 64 maximum := by
            rw [gt_iff_lt, BitVec.lt_def, BitVec.toNat_ofNat, BitVec.toNat_ofNat, Nat.mod_eq_of_lt sum,
              Nat.mod_eq_of_lt hmaximum]
            omega
          rw [if_pos large]
      · have wraps : BitVec.ofNat 64 (value + digitValue character * base ^ k) < BitVec.ofNat 64 value := by
          rw [BitVec.lt_def, BitVec.toNat_ofNat, BitVec.toNat_ofNat, Nat.mod_eq_of_lt (show value < 2 ^ 64 by omega)]
          omega
        rw [if_pos wraps]
    · rw [if_pos (mt product.mp increment)]

instance (token : IntLiteralToken) (negate : Bool) : Decidable (token.InRange negate) :=
  inferInstanceAs (Decidable (token.magnitude ≤ INT64_MAX + (if negate then 1 else 0)))

/-- What a text stands for: its number, or the overflow marker where the number is too large. -/
def IntLiteralToken.denoted (token : IntLiteralToken) (negate : Bool) : Word :=
  if token.InRange negate then BitVec.ofNat 64 token.magnitude else overflowMarker

/-- A literal out of range is marked. -/
theorem irIntLiteralFromAst_overflow {token : IntLiteralToken} (wellFormed : token.WellFormed) {negate : Bool}
    (outside : ¬ token.InRange negate) : irIntLiteralFromAst token negate = overflowMarker := by
  have maximum : BitVec.ofNat 64 INT64_MAX + (if negate then 1 else 0) =
      BitVec.ofNat 64 (INT64_MAX + (if negate then 1 else 0)) := by cases negate <;> rfl
  have small : INT64_MAX + (if negate then 1 else 0) < 2 ^ 64 := by cases negate <;> decide
  have digits : ∀ character ∈ token.digits.reverse,
      characterToInt character = BitVec.ofNat 64 (digitValue character) ∧ digitValue character < 2 ^ 64 := by
    intro character mem
    have digit := wellFormed.digit (List.mem_reverse.mp mem)
    exact ⟨characterToInt_eq digit, (digitValue_lt digit).trans (by decide)⟩
  have base : (if token.hex then 16 else 10 : Word) = BitVec.ofNat 64 token.base := by
    unfold IntLiteralToken.base
    cases token.hex <;> rfl
  have large : INT64_MAX + (if negate then 1 else 0) < token.magnitude := not_le.mp outside
  have loop := stringToIntLoop_overflow token.base (by unfold IntLiteralToken.base; split <;> decide)
    (by unfold IntLiteralToken.base; split <;> decide) small token.digits.reverse digits 0 0 (by simp) (Nat.zero_le _)
    (by rw [Nat.zero_add, Nat.pow_zero, Nat.one_mul]; exact large)
  rw [irIntLiteralFromAst, stringToInt, maximum, base]
  rwa [Nat.pow_zero] at loop

private theorem irIntLiteralFromAstChecked_eq (token : IntLiteralToken) (negate : Bool) :
    irIntLiteralFromAstChecked token negate = some (irIntLiteralFromAst token negate) := by
  have nonzero : (if token.hex then 16 else 10 : Word) ≠ 0 := by cases token.hex <;> decide
  exact stringToIntCheckedLoop_eq nonzero _ _ _ fun _ => by decide

/-- A number in range is not the marker. -/
private theorem ofNat_magnitude_ne {token : IntLiteralToken} {negate : Bool} (range : token.InRange negate) :
    BitVec.ofNat 64 token.magnitude ≠ overflowMarker := by
  have small : token.magnitude < 2 ^ 64 - 1 := by
    unfold IntLiteralToken.InRange INT64_MAX at range
    split at range <;> omega
  intro same
  have := congrArg BitVec.toNat same
  rw [BitVec.toNat_ofNat, Nat.mod_eq_of_lt (by omega)] at this
  exact absurd this small.ne

private theorem irIntLiteralFromAst_denoted_iff {token : IntLiteralToken} (wellFormed : token.WellFormed)
    (negate : Bool) :
    irIntLiteralFromAst token negate = token.denoted negate ↔ (token.Overlong → ¬ token.InRange negate) := by
  by_cases range : token.InRange negate
  · rw [IntLiteralToken.denoted, if_pos range, irIntLiteralFromAst_eq wellFormed negate range]
    by_cases long : token.Overlong
    · rw [if_pos long]
      exact iff_of_false (ofNat_magnitude_ne range).symm fun never => never long range
    · rw [if_neg long]
      exact iff_of_true rfl fun overlong => absurd overlong long
  · rw [IntLiteralToken.denoted, if_neg range, irIntLiteralFromAst_overflow wellFormed range]
    exact iff_of_true rfl fun _ => range

/-- `literal_to_int64` does not fail its assertion and gives the number of the text, with its sign. -/
def IrLiteral.Exact (literal : IrLiteral) : Prop :=
  literal.value.toNat ≤ 2 ^ 63 ∧ ∀ token ∈ literal.token,
    (literalToInt64 literal).toInt = (if literal.negate then -1 else 1) * (token.magnitude : Int)

def exactLiterals : Rules where
  literal := IrLiteral.Exact
  field field := ∀ initializer ∈ field.initializer, ∀ literal ∈ initializer.literals, literal.Exact

/-- A literal in range denotes its number. -/
private theorem literalToInt64_toInt {literal : IrLiteral} {token : IntLiteralToken}
    (range : token.InRange literal.negate)
    (value : literal.value = BitVec.ofNat 64 token.magnitude) :
    (literalToInt64 literal).toInt = (if literal.negate then -1 else 1) * (token.magnitude : Int) := by
  unfold IntLiteralToken.InRange INT64_MAX at range
  unfold literalToInt64
  rw [value]
  cases hnegate : literal.negate with
  | false =>
    rw [hnegate] at range
    have exact : (BitVec.ofNat 64 token.magnitude).toNat = token.magnitude := by
      rw [BitVec.toNat_ofNat, Nat.mod_eq_of_lt (by simp at range; omega)]
    simp only [Bool.false_eq_true, false_and, if_false, one_mul]
    rw [BitVec.toInt_eq_toNat_of_lt (by rw [exact]; simp at range; omega), exact]
  | true =>
    rw [hnegate] at range
    simp only [if_true] at range
    by_cases lowest : token.magnitude = 2 ^ 63
    · rw [lowest]
      decide
    · have exact : (BitVec.ofNat 64 token.magnitude).toNat = token.magnitude := by
        rw [BitVec.toNat_ofNat, Nat.mod_eq_of_lt (by omega)]
      have other : BitVec.ofNat 64 token.magnitude ≠ 1 <<< 63 := by
        intro same
        rw [same] at exact
        exact lowest exact.symm
      have minusOne : (-1 : Word).toInt = -1 := by decide
      have positive : (BitVec.ofNat 64 token.magnitude).toInt = token.magnitude := by
        rw [BitVec.toInt_eq_toNat_of_lt (by rw [exact]; omega), exact]
      rw [if_pos ⟨rfl, other⟩, BitVec.toInt_mul, minusOne, positive, if_pos rfl, mul_comm]
      exact Int.bmod_eq_of_le (by omega) (by omega)

/-- An accepted literal from a source denotes its number. -/
theorem IrLiteral.exact {literal : IrLiteral} (accepted : literal.Accepted) (source : literal.FromSource) :
    literal.Exact := by
  refine ⟨(IrLiteral.ready accepted source).value, fun token given => ?_⟩
  unfold IrLiteral.FromSource at source
  cases htype : literal.type with
  | int =>
    rw [htype] at source
    obtain ⟨token', given', wellFormed, value⟩ := source
    obtain rfl : token' = token := Option.some.inj (given'.symm.trans given)
    have noMarker : irIntLiteralFromAst token' literal.negate ≠ overflowMarker := by
      intro marker
      exact accepted ⟨htype, value.trans marker⟩
    have range : token'.InRange literal.negate := by
      by_contra outside
      exact noMarker (irIntLiteralFromAst_overflow wellFormed outside)
    refine literalToInt64_toInt range ?_
    rw [value, irIntLiteralFromAst_eq wellFormed _ range]
    rw [irIntLiteralFromAst_eq wellFormed _ range] at noMarker
    split at noMarker
    · exact absurd rfl noMarker
    · rename_i short
      rw [if_neg short]
  | bool =>
    rw [htype] at source
    rw [source.1] at given
    cases given
  | char =>
    rw [htype] at source
    rw [source.1] at given
    cases given

private theorem exactLiterals_fills : sourceRules.Fills (readyRules.and exactLiterals) where
  literal literal h := ⟨sourceRules_fills.literal literal h, IrLiteral.exact h.1 h.2.1⟩
  field field h := by
    refine ⟨sourceRules_fills.field field h, fun initializer given literal mem => ?_⟩
    have same : field.analyzed.initializer = field.initializer := by
      unfold IrField.analyzed
      split <;> simp_all
    have given : field.initializer = some initializer := same ▸ given
    have accepted := h.1
    simp only [checkerRules, IrField.Accepted, given] at accepted
    exact IrLiteral.exact (accepted.1 literal mem).1 (h.2.literals initializer given literal mem)

/-- A text of decimal or hexadecimal digits is converted without a division by zero, to its number or, where the number
is too large, to the overflow marker, but for overlong texts of a number in range, which become the marker as well. The
literals of an accepted program have their numbers. -/
theorem irIntLiteralFromAst_denotes_iff {token : IntLiteralToken} (wellFormed : token.WellFormed) (negate : Bool) :
    (irIntLiteralFromAstChecked token negate = some (token.denoted negate) ↔
      (token.Overlong → ¬ token.InRange negate)) ∧
    irIntLiteralFromAstChecked token negate ≠ none ∧
    ∀ program analyzed : IrProgram, program.FromSource → Accepts program analyzed → analyzed.All exactLiterals := by
  rw [irIntLiteralFromAstChecked_eq, Option.some.injEq]
  refine ⟨irIntLiteralFromAst_denoted_iff wellFormed negate, by simp, fun program analyzed source accepted => ?_⟩
  have typed := accepts_fills exactLiterals_fills source (accepts_typed source accepted) accepted
  exact ((programTyped_and analyzed).mp typed).2

def largestLiteral : IntLiteralToken := ⟨false, "9223372036854775807".toList⟩

theorem irIntLiteralFromAst_denotes_iff_largest :
    irIntLiteralFromAstChecked largestLiteral false = some (largestLiteral.denoted false) :=
  (irIntLiteralFromAst_denotes_iff (by decide +kernel : largestLiteral.WellFormed) false).1.mpr fun long =>
    absurd long (by decide +kernel)

def paddedToken : IntLiteralToken := ⟨true, "00000000000000001".toList⟩

/-- The literal denotes one and is converted to the overflow marker. -/
theorem paddedToken_overflows : paddedToken.magnitude = 1 ∧ ¬ irIntLiteralFromAst paddedToken false = paddedToken.denoted false := by
  decide +kernel

end Roast
