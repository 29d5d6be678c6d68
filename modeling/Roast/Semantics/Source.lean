import Mathlib.Data.Nat.Digits.Defs
import Mathlib.Algebra.Order.Group.Nat
import Roast.Semantics.CheckerCorrect
import Roast.Semantics.Throughout

/-! What the scanner, the parser and `ir_program_new` guarantee of a program, before the checker runs:
the shape of names, of literals and of declarations. -/
namespace Roast

def digitValue (character : Char) : Nat :=
  if CharacterBetween 'a' 'f' character then character.toNat - 'a'.toNat + 10
  else if CharacterBetween 'A' 'F' character then character.toNat - 'A'.toNat + 10
  else character.toNat - '0'.toNat

namespace IntLiteralToken

def base (token : IntLiteralToken) : Nat := if token.hex then 16 else 10

def magnitude (token : IntLiteralToken) : Nat :=
  Nat.ofDigits token.base (token.digits.reverse.map digitValue)

/-- The scanner's patterns `0x[0-9a-fA-F]+` and `[0-9]+`. -/
structure WellFormed (token : IntLiteralToken) : Prop where
  nonempty : token.digits ≠ []
  digits : ∀ character ∈ token.digits,
    character.isDigit ∨ token.hex ∧ (CharacterBetween 'a' 'f' character ∨ CharacterBetween 'A' 'F' character)

/-- More digits than a 64-bit number needs: the token starts with zeros or denotes a larger number. -/
def Overlong (token : IntLiteralToken) : Prop :=
  (if token.hex then 16 else 20) < token.digits.length

instance (token : IntLiteralToken) : Decidable token.Overlong := by
  unfold Overlong
  infer_instance

/-- The token denotes an `int64_t`, with a minus sign in front of it when `negate` is set. -/
def InRange (token : IntLiteralToken) (negate : Bool) : Prop :=
  token.magnitude ≤ INT64_MAX + (if negate then 1 else 0)

end IntLiteralToken

theorem characterToInt_eq {character : Char} (digit : character.isDigit ∨
    CharacterBetween 'a' 'f' character ∨ CharacterBetween 'A' 'F' character) :
    characterToInt character = BitVec.ofNat 64 (digitValue character) := by
  unfold characterToInt digitValue
  split
  · rfl
  · rename_i lower
    split
    · rfl
    · rename_i upper
      obtain decimal | h | h := digit
      · rw [Char.isDigit_iff_toNat] at decimal
        rw [BitVec.ofNat_sub_ofNat_of_le _ _ (by decide) decimal.1]
      · exact absurd h lower
      · exact absurd h upper

private theorem charCodes : 'a'.toNat = 97 ∧ 'f'.toNat = 102 ∧ 'A'.toNat = 65 ∧ 'F'.toNat = 70 ∧
    '0'.toNat = 48 ∧ '9'.toNat = 57 := by decide

theorem digitValue_lt {character : Char} (digit : character.isDigit ∨
    CharacterBetween 'a' 'f' character ∨ CharacterBetween 'A' 'F' character) : digitValue character < 16 := by
  simp only [Char.isDigit_iff_toNat, digitValue, CharacterBetween, charCodes] at digit ⊢
  split_ifs <;> omega

/-- The source's test for overflow of a product: dividing it again does not give the factor back. -/
theorem mul_div_eq_iff {place base : Nat} (positive : 0 < place) (hplace : place < 2 ^ 64)
    (hbase : base < 2 ^ 64) :
    (BitVec.ofNat 64 place * BitVec.ofNat 64 base) / BitVec.ofNat 64 place = BitVec.ofNat 64 base ↔
      place * base < 2 ^ 64 := by
  rw [← BitVec.toNat_inj, BitVec.toNat_udiv, BitVec.toNat_mul, BitVec.toNat_ofNat, BitVec.toNat_ofNat,
    Nat.mod_eq_of_lt hplace, Nat.mod_eq_of_lt hbase]
  constructor
  · intro h
    by_contra overflow
    have wrapped : (place * base) % 2 ^ 64 < place * base :=
      (Nat.mod_lt _ (by decide)).trans_le (Nat.le_of_not_lt overflow)
    have := Nat.mul_div_le ((place * base) % 2 ^ 64) place
    rw [h] at this
    omega
  · intro h
    rw [Nat.mod_eq_of_lt h, Nat.mul_div_cancel_left _ positive]

/-- The loop after `k` digits, with the value `value` so far. -/
private theorem stringToIntLoop_eq (base : Nat) {maximum : Nat} (hbase : 1 < base) (small : base < 2 ^ 64)
    (hmaximum : maximum < 2 ^ 64) (characters : List Char)
    (digits : ∀ character ∈ characters, characterToInt character = BitVec.ofNat 64 (digitValue character))
    (value k : Nat) (place : base ^ k < 2 ^ 64)
    (range : value + base ^ k * Nat.ofDigits base (characters.map digitValue) ≤ maximum) :
    stringToIntLoop (BitVec.ofNat 64 maximum) (BitVec.ofNat 64 base) characters (BitVec.ofNat 64 value)
        (BitVec.ofNat 64 (base ^ k)) =
      if base ^ (k + characters.length - 1) < 2 ^ 64 then
        BitVec.ofNat 64 (value + base ^ k * Nat.ofDigits base (characters.map digitValue))
      else overflowMarker := by
  induction characters generalizing value k with
  | nil =>
    have : base ^ (k - 1) < 2 ^ 64 := (Nat.pow_le_pow_right hbase.le (Nat.sub_le k 1)).trans_lt place
    rw [List.length_nil, Nat.add_zero, if_pos this]
    simp [stringToIntLoop]
  | cons character rest ih =>
    have positive : 0 < base ^ k := Nat.pow_pos (by omega)
    rw [List.map_cons, Nat.ofDigits_cons, Nat.mul_add, ← Nat.mul_assoc, ← pow_succ] at range ⊢
    have increment : base ^ k * digitValue character < 2 ^ 64 := by omega
    have sum : value + base ^ k * digitValue character < 2 ^ 64 := by omega
    have digit : digitValue character < 2 ^ 64 := (Nat.le_mul_of_pos_left _ positive).trans_lt increment
    have product : BitVec.ofNat 64 (digitValue character) * BitVec.ofNat 64 (base ^ k) =
        BitVec.ofNat 64 (base ^ k * digitValue character) := by
      rw [← BitVec.ofNat_mul, Nat.mul_comm]
    have exact := (mul_div_eq_iff positive place digit).mpr increment
    rw [← BitVec.ofNat_mul] at exact
    have grows : ¬ BitVec.ofNat 64 (value + base ^ k * digitValue character) < BitVec.ofNat 64 value := by
      rw [BitVec.lt_def, BitVec.toNat_ofNat, BitVec.toNat_ofNat, Nat.mod_eq_of_lt sum,
        Nat.mod_eq_of_lt (by omega)]
      omega
    have fits : ¬ BitVec.ofNat 64 (value + base ^ k * digitValue character) > BitVec.ofNat 64 maximum := by
      rw [gt_iff_lt, BitVec.lt_def, BitVec.toNat_ofNat, BitVec.toNat_ofNat, Nat.mod_eq_of_lt sum,
        Nat.mod_eq_of_lt hmaximum]
      omega
    have next : BitVec.ofNat 64 (base ^ k) * BitVec.ofNat 64 base = BitVec.ofNat 64 (base ^ (k + 1)) := by
      rw [← BitVec.ofNat_mul, pow_succ]
    have carry := mul_div_eq_iff positive place small
    rw [next, ← pow_succ] at carry
    simp only [stringToIntLoop, digits character List.mem_cons_self, product, exact, ne_eq, not_true,
      if_false, ← BitVec.ofNat_add, grows, fits, next, carry]
    cases rest with
    | nil =>
      rw [if_neg (by simp), List.length_singleton, Nat.add_sub_cancel, if_pos place]
      simp [stringToIntLoop]
    | cons other rest =>
      have length : k + (character :: other :: rest).length - 1 = k + 1 + (other :: rest).length - 1 := by
        simp only [List.length_cons]
        omega
      rw [length]
      by_cases hplace : base ^ (k + 1) < 2 ^ 64
      · rw [if_neg (fun h => h.2 hplace), ih (fun c hc => digits c (List.mem_cons_of_mem _ hc)) _ _ hplace
          (by omega), Nat.add_assoc value]
      · have : ¬ base ^ (k + 1 + (other :: rest).length - 1) < 2 ^ 64 := fun h =>
          hplace ((Nat.pow_le_pow_right hbase.le (by simp only [List.length_cons]; omega)).trans_lt h)
        rw [if_pos ⟨by simp, hplace⟩, if_neg this]

namespace IntLiteralToken
variable {token : IntLiteralToken}

theorem WellFormed.digit (h : token.WellFormed) {character : Char} (mem : character ∈ token.digits) :
    character.isDigit ∨ CharacterBetween 'a' 'f' character ∨ CharacterBetween 'A' 'F' character := by
  obtain digit | ⟨_, digit⟩ := h.digits character mem
  · exact .inl digit
  · exact .inr digit

end IntLiteralToken

open IntLiteralToken in
/-- A literal in range is converted to its value, and to the overflow marker when it is overlong. -/
theorem irIntLiteralFromAst_eq {token : IntLiteralToken} (h : token.WellFormed) (negate : Bool) (range : token.InRange negate) :
    irIntLiteralFromAst token negate =
      if token.Overlong then overflowMarker else BitVec.ofNat 64 token.magnitude := by
  have maximum : BitVec.ofNat 64 INT64_MAX + (if negate then 1 else 0) =
      BitVec.ofNat 64 (INT64_MAX + (if negate then 1 else 0)) := by cases negate <;> rfl
  have small : INT64_MAX + (if negate then 1 else 0) < 2 ^ 64 := by cases negate <;> decide
  have digits : ∀ character ∈ token.digits.reverse,
      characterToInt character = BitVec.ofNat 64 (digitValue character) :=
    fun character mem => characterToInt_eq (h.digit (List.mem_reverse.mp mem))
  have nonempty : 0 < token.digits.length := List.length_pos_iff.mpr h.nonempty
  have base : (if token.hex then 16 else 10 : Word) = BitVec.ofNat 64 token.base := by
    unfold IntLiteralToken.base
    cases token.hex <;> rfl
  have loop := stringToIntLoop_eq token.base (by unfold IntLiteralToken.base; split <;> decide)
    (by unfold IntLiteralToken.base; split <;> decide) small token.digits.reverse digits 0 0 (by simp)
    (by rw [Nat.zero_add, Nat.pow_zero, Nat.one_mul]; exact range)
  unfold irIntLiteralFromAst stringToInt
  simp only [Nat.zero_add, Nat.pow_zero, Nat.one_mul, List.length_reverse] at loop
  rw [maximum, base]
  refine loop.trans ?_
  have overlong : token.Overlong ↔ ¬ token.base ^ (token.digits.length - 1) < 2 ^ 64 := by
    unfold Overlong IntLiteralToken.base
    cases token.hex with
    | true =>
      rw [if_pos rfl, if_pos rfl, show (2 : Nat) ^ 64 = 16 ^ 16 by norm_num,
        Nat.pow_lt_pow_iff_right (by decide)]
      omega
    | false =>
      rw [if_neg (by decide), if_neg (by decide)]
      constructor
      · intro hlength
        have := Nat.pow_le_pow_right (n := 10) (by decide) (show 20 ≤ token.digits.length - 1 by omega)
        omega
      · intro hpow
        by_contra hlength
        have := Nat.pow_le_pow_right (n := 10) (by decide) (show token.digits.length - 1 ≤ 19 by omega)
        omega
  by_cases long : token.Overlong
  · rw [if_neg (overlong.mp long), if_pos long]
  · rw [if_pos (not_not.mp fun h => long (overlong.mpr h)), if_neg long]
    rfl

/-- The scanner's pattern `[a-zA-Z_][a-zA-Z0-9_]*`. -/
def IsIdentifier (identifier : String) : Prop :=
  identifier.toList ≠ [] ∧ (∀ character ∈ identifier.toList.head?, ¬ character.isDigit) ∧
    ∀ character ∈ identifier.toList, character.isAlphanum ∨ character = '_'

instance (identifier : String) : Decidable (IsIdentifier identifier) :=
  decidable_of_iff (identifier.toList ≠ [] ∧ identifier.toList.head?.all (fun character => !character.isDigit) ∧
      identifier.toList.all fun character => character.isAlphanum || character == '_')
    (by simp [IsIdentifier, Option.all_eq_true])

def IrLiteral.FromSource (literal : IrLiteral) : Prop :=
  match literal.type with
  | .int => ∃ token, literal.token = some token ∧ token.WellFormed ∧
      literal.value = irIntLiteralFromAst token literal.negate
  | .bool => literal.token = none ∧ (literal.value = 0 ∨ literal.value = 1)
  | .char => literal.token = none ∧ literal.value.toNat < 128

structure IrField.FromSource (field : IrField) : Prop where
  identifier : IsIdentifier field.identifier
  type : field.type.element = .int ∨ field.type.element = .bool
  scalar : field.type.isArray = false → field.arrayLength = 1 ∧ field.lengthToken = none
  array : field.type.isArray = true → field.arrayLength =
    (field.lengthToken.map fun token => (irIntLiteralFromAst token false).toInt).getD (-1)
  length : ∀ token ∈ field.lengthToken, token.WellFormed
  literals : ∀ initializer ∈ field.initializer, ∀ literal ∈ initializer.literals, literal.FromSource
  count : ∀ initializer ∈ field.initializer, initializer.literals ≠ [] ∧
    initializer.literals.length < 2 ^ 32 ∧ (initializer.array = false → initializer.literals.length = 1)

/-- Only integer literals keep their sign in an expression: before others the parser reads a negation. -/
def sourceRules : Rules where
  literal literal := literal.FromSource ∧ (literal.negate = true → literal.type = .int)
  field := IrField.FromSource

/-- What `parser_parse` and `ir_program_new` guarantee. -/
structure IrProgram.FromSource (program : IrProgram) : Prop extends program.Sorted where
  all : program.All sourceRules
  names : ∀ name ∈ program.names, IsIdentifier name
  importTypes : ∀ method ∈ program.imports, method.returnType = .int ∧ method.arguments = []
  returnTypes : ∀ method ∈ program.methods, method.returnType.isArray = false
  arguments : ∀ method ∈ program.methods, ∀ field ∈ method.arguments,
    field.type.isArray = false ∧ field.constant = false ∧ field.initializer = none

instance (token : IntLiteralToken) : Decidable token.WellFormed :=
  decidable_of_iff (token.digits ≠ [] ∧ token.digits.all fun character => decide (character.isDigit ∨
      token.hex ∧ (CharacterBetween 'a' 'f' character ∨ CharacterBetween 'A' 'F' character)))
    ⟨fun h => ⟨h.1, by simpa using h.2⟩, fun h => ⟨h.nonempty, by simpa using h.digits⟩⟩

instance : DecidablePred IrLiteral.FromSource := fun literal =>
  decidable_of_iff ((literal.type = .int ∧ ∃ token ∈ literal.token, token.WellFormed ∧
        literal.value = irIntLiteralFromAst token literal.negate) ∨
      (literal.type = .bool ∧ literal.token = none ∧ (literal.value = 0 ∨ literal.value = 1)) ∨
      (literal.type = .char ∧ literal.token = none ∧ literal.value.toNat < 128))
    (by unfold IrLiteral.FromSource; cases literal.type <;> simp)

instance : DecidablePred IrField.FromSource := fun field =>
  decidable_of_iff (IsIdentifier field.identifier ∧ (field.type.element = .int ∨ field.type.element = .bool) ∧
      (field.type.isArray = false → field.arrayLength = 1 ∧ field.lengthToken = none) ∧
      (field.type.isArray = true → field.arrayLength =
        (field.lengthToken.map fun token => (irIntLiteralFromAst token false).toInt).getD (-1)) ∧
      (∀ token ∈ field.lengthToken, token.WellFormed) ∧
      (∀ initializer ∈ field.initializer, ∀ literal ∈ initializer.literals, literal.FromSource) ∧
      ∀ initializer ∈ field.initializer, initializer.literals ≠ [] ∧
        initializer.literals.length < 2 ^ 32 ∧ (initializer.array = false → initializer.literals.length = 1))
    ⟨fun ⟨identifier, type, scalar, array, length, literals, count⟩ =>
        ⟨identifier, type, scalar, array, length, literals, count⟩,
      fun h => ⟨h.identifier, h.type, h.scalar, h.array, h.length, h.literals, h.count⟩⟩

instance : DecidablePred sourceRules.literal := fun literal =>
  inferInstanceAs (Decidable (literal.FromSource ∧ (literal.negate = true → literal.type = .int)))

instance : DecidablePred sourceRules.field := fun field => inferInstanceAs (Decidable field.FromSource)

instance (program : IrProgram) : Decidable program.FromSource :=
  decidable_of_iff ((∀ method ∈ program.imports, method.imported = true) ∧
      (∀ method ∈ program.methods, method.imported = false) ∧ program.All sourceRules ∧
      (∀ name ∈ program.names, IsIdentifier name) ∧
      (∀ method ∈ program.imports, method.returnType = .int ∧ method.arguments = []) ∧
      (∀ method ∈ program.methods, method.returnType.isArray = false) ∧
      ∀ method ∈ program.methods, ∀ field ∈ method.arguments,
        field.type.isArray = false ∧ field.constant = false ∧ field.initializer = none)
    ⟨fun ⟨imports, methods, all, names, importTypes, returnTypes, arguments⟩ =>
        ⟨⟨imports, methods⟩, all, names, importTypes, returnTypes, arguments⟩,
      fun h => ⟨h.imports, h.methods, h.all, h.names, h.importTypes, h.returnTypes, h.arguments⟩⟩

private theorem declaredType_iff (array : Bool) {element type : IrDataType} (scalar : element.isArray = false) :
    (if array then element.array else element) = type ↔ array = type.isArray ∧ element = type.element := by
  cases array <;> cases element <;> cases type <;> simp_all [IrDataType.isArray, IrDataType.array, IrDataType.element]

/-- The checker compares the literals with the first one and the first one with the field. -/
theorem IrField.initializer_type_iff {field : IrField} (source : field.FromSource) {initializer : IrInitializer}
    (given : field.initializer = some initializer) :
    (∀ literal ∈ initializer.literals, literal.type.dataType = initializer.elementType) ∧
      (if initializer.array then initializer.elementType.array else initializer.elementType) = field.type ↔
    initializer.array = field.type.isArray ∧
      ∀ literal ∈ initializer.literals, literal.type.dataType = field.type.element := by
  obtain ⟨first, rest, hliterals⟩ := List.exists_cons_of_ne_nil (source.count initializer given).1
  have element : initializer.elementType = first.type.dataType := by
    simp [IrInitializer.elementType, hliterals]
  have scalar : initializer.elementType.isArray = false := by
    rw [element]
    cases first.type <;> rfl
  have first_mem : first ∈ initializer.literals := by simp [hliterals]
  rw [declaredType_iff _ scalar]
  constructor
  · rintro ⟨same, array, type⟩
    exact ⟨array, fun literal mem => (same literal mem).trans type⟩
  · rintro ⟨array, types⟩
    have type := element.trans (types first first_mem)
    exact ⟨fun literal mem => (types literal mem).trans type.symm, array, type⟩

end Roast
