import Roast.Semantics.Source

/-! The language's own rules for declarations, and the programs for which the checker decides them. -/
namespace Roast

/-- The literals and lengths that denote a 64-bit integer. -/
def rangeRules : Rules where
  literal literal := ∀ token ∈ literal.token, token.InRange literal.negate
  field field := (∀ token ∈ field.lengthToken, token.InRange false) ∧
    ∀ initializer ∈ field.initializer, ∀ literal ∈ initializer.literals,
      ∀ token ∈ literal.token, token.InRange literal.negate

structure IrField.LegalInitializer (field : IrField) : Prop where
  scalar : field.type.isArray = false → ∀ initializer ∈ field.initializer, initializer.array = false
  literals : ∀ initializer ∈ field.initializer, ∀ literal ∈ initializer.literals,
    literal.type.dataType = field.type.element
  constant : field.constant = true → field.initializer ≠ none

/-- An array has a positive length or a braced initializer but not both. -/
structure IrField.Legal (field : IrField) : Prop extends field.LegalInitializer where
  array : field.type.isArray = true →
    (field.initializer = none ∧ ∃ token ∈ field.lengthToken, 0 < token.magnitude) ∨
    (field.lengthToken = none ∧ ∃ initializer ∈ field.initializer, initializer.array = true)

def typeRules : Rules where
  literal _ := True
  field := IrField.Legal

/-- As `IrField.Legal`, but an overlong length next to an initializer is disregarded. -/
structure IrField.LooselyLegal (field : IrField) : Prop extends field.LegalInitializer where
  array : field.type.isArray = true →
    (field.initializer = none ∧ ∃ token ∈ field.lengthToken, 0 < token.magnitude) ∨
    ((∀ token ∈ field.lengthToken, token.Overlong) ∧ ∃ initializer ∈ field.initializer, initializer.array = true)

def looseRules : Rules where
  literal _ := True
  field := IrField.LooselyLegal

/-- The places where the checker rejects an overlong literal. -/
def rejectedOverlong : Rules where
  literal literal := ∀ token ∈ literal.token, ¬ token.Overlong
  field field := (∀ token ∈ field.lengthToken, token.Overlong → field.initializer ≠ none) ∧
    ∀ initializer ∈ field.initializer, ∀ literal ∈ initializer.literals, ∀ token ∈ literal.token, ¬ token.Overlong

/-- The places where the checker takes an overlong length for an absent one. -/
def unnoticedOverlong : Rules where
  literal _ := True
  field field := ∀ token ∈ field.lengthToken, token.Overlong → field.initializer = none

private theorem IrLiteral.accepted_iff {literal : IrLiteral} (source : literal.FromSource)
    (range : rangeRules.literal literal) :
    literal.Accepted ↔ ∀ token ∈ literal.token, ¬ token.Overlong := by
  unfold IrLiteral.FromSource at source
  unfold IrLiteral.Accepted
  cases htype : literal.type with
  | int =>
    rw [htype] at source
    obtain ⟨token, htoken, wellFormed, hvalue⟩ := source
    have inRange := range token htoken
    rw [hvalue, irIntLiteralFromAst_eq wellFormed _ inRange, htoken]
    by_cases long : token.Overlong
    · simp [long]
    · have small : token.magnitude < 2 ^ 64 - 1 := by
        unfold IntLiteralToken.InRange INT64_MAX at inRange
        split at inRange <;> omega
      have : BitVec.ofNat 64 token.magnitude ≠ overflowMarker := by
        intro same
        have := congrArg BitVec.toNat same
        rw [BitVec.toNat_ofNat, Nat.mod_eq_of_lt (by omega)] at this
        exact absurd this small.ne
      simp [long, this]
  | bool =>
    rw [htype] at source
    simp [source.1]
  | char =>
    rw [htype] at source
    simp [source.1]

/-- The number that stands for the length of an array without a length. -/
theorem arrayLength_of_token {token : IntLiteralToken} (wellFormed : token.WellFormed)
    (range : token.InRange false) : (irIntLiteralFromAst token false).toInt =
      if token.Overlong then -1 else (token.magnitude : Int) := by
  rw [irIntLiteralFromAst_eq wellFormed false range]
  split
  · rfl
  · have : token.magnitude ≤ 2 ^ 63 - 1 := range
    have exact : (BitVec.ofNat 64 token.magnitude).toNat = token.magnitude := by
      rw [BitVec.toNat_ofNat, Nat.mod_eq_of_lt (by omega)]
    rw [BitVec.toInt_eq_toNat_of_lt (by omega), exact]

namespace IrField
variable {field : IrField}

private theorem literals_accepted_iff (source : field.FromSource) (range : rangeRules.field field)
    {initializer : IrInitializer} (given : field.initializer = some initializer) :
    (∀ literal ∈ initializer.literals, literal.Accepted) ↔
      ∀ literal ∈ initializer.literals, ∀ token ∈ literal.token, ¬ token.Overlong :=
  forall₂_congr fun literal mem =>
    IrLiteral.accepted_iff (source.literals initializer given literal mem) (range.2 initializer given literal mem)

private theorem accepted_iff (source : field.FromSource) (range : rangeRules.field field) :
    field.Accepted ↔ field.LooselyLegal ∧ rejectedOverlong.field field := by
  have declared (token : IntLiteralToken) (given : field.lengthToken = some token)
      (array : field.type.isArray = true) :
      field.arrayLength = if token.Overlong then -1 else (token.magnitude : Int) := by
    rw [source.array array, given, Option.map_some, Option.getD_some,
      arrayLength_of_token (source.length token given) (range.1 token given)]
  have undeclared (given : field.lengthToken = none) (array : field.type.isArray = true) :
      field.arrayLength = -1 := by
    rw [source.array array, given]
    rfl
  cases hinitializer : field.initializer with
  | none =>
    have accepted : field.Accepted ↔
        (field.type.isArray = true → field.arrayLength ≠ -1 ∧ field.arrayLength ≠ 0) ∧ field.constant = false := by
      simp only [IrField.Accepted, hinitializer]
      tauto
    rw [accepted]
    constructor
    · rintro ⟨length, constant⟩
      have positive (token : IntLiteralToken) (given : field.lengthToken = some token)
          (array : field.type.isArray = true) : ¬ token.Overlong ∧ 0 < token.magnitude := by
        have := length array
        rw [declared token given array] at this
        split at this
        · exact absurd rfl this.1
        · exact ⟨by assumption, by omega⟩
      have array (token : IntLiteralToken) (given : field.lengthToken = some token) :
          field.type.isArray = true := by
        by_contra scalar
        simp [(source.scalar (by simpa using scalar)).2] at given
      refine ⟨⟨⟨by simp [hinitializer], by simp [hinitializer], by simp [constant]⟩, fun isArray => ?_⟩, ?_⟩
      · cases hlength : field.lengthToken with
        | none => exact absurd (undeclared hlength isArray) (length isArray).1
        | some token => exact .inl ⟨hinitializer, token, rfl, (positive token hlength isArray).2⟩
      · refine ⟨fun token given long => ?_, by simp [hinitializer]⟩
        exact absurd long (positive token given (array token given)).1
    · rintro ⟨loose, rejected⟩
      refine ⟨fun isArray => ?_, ?_⟩
      · obtain ⟨_, token, given, positive⟩ | ⟨_, _, given, _⟩ := loose.array isArray
        · rw [declared token given isArray, if_neg fun long => rejected.1 token given long hinitializer]
          omega
        · simp [hinitializer] at given
      · by_contra constant
        exact loose.constant (by simpa using constant) hinitializer
  | some initializer =>
    have accepted : field.Accepted ↔
        (∀ literal ∈ initializer.literals, literal.Accepted) ∧
        (initializer.array = field.type.isArray ∧
          ∀ literal ∈ initializer.literals, literal.type.dataType = field.type.element) ∧
        (field.type.isArray = true → initializer.array = true → field.arrayLength = -1) := by
      rw [← initializer_type_iff source hinitializer]
      simp only [IrField.Accepted, hinitializer, forall₂_and, and_assoc]
      tauto
    have long : (∀ token ∈ field.lengthToken, token.Overlong) ↔
        (field.type.isArray = true → field.arrayLength = -1) := by
      cases hlength : field.lengthToken with
      | none => simpa using undeclared hlength
      | some token =>
        have array : field.type.isArray = true := by
          by_contra scalar
          simp [(source.scalar (by simpa using scalar)).2] at hlength
        simp only [Option.mem_def, Option.some.injEq, forall_eq', array, true_imp_iff, declared token hlength array]
        split
        · simpa
        · simp only [*, false_iff]
          omega
    rw [accepted, literals_accepted_iff source range hinitializer]
    constructor
    · rintro ⟨literals, ⟨array, types⟩, length⟩
      refine ⟨⟨⟨fun scalar i given => ?_, fun i given => ?_, by simp [hinitializer]⟩, fun isArray => ?_⟩,
        by simp [hinitializer], fun i given => ?_⟩
      · obtain rfl := Option.some.inj (hinitializer.symm.trans given)
        exact array.trans scalar
      · obtain rfl := Option.some.inj (hinitializer.symm.trans given)
        exact types
      · exact .inr ⟨long.mpr fun _ => length isArray (array.trans isArray), initializer, hinitializer,
          array.trans isArray⟩
      · obtain rfl := Option.some.inj (hinitializer.symm.trans given)
        exact literals
    · rintro ⟨loose, rejected⟩
      refine ⟨rejected.2 initializer hinitializer, ⟨?_, loose.literals initializer hinitializer⟩,
        fun isArray _ => ?_⟩
      · cases isArray : field.type.isArray with
        | false => exact loose.scalar isArray initializer hinitializer
        | true =>
          obtain ⟨absent, _⟩ | ⟨_, i, given, array⟩ := loose.array isArray
          · simp [hinitializer] at absent
          · obtain rfl := Option.some.inj (hinitializer.symm.trans given)
            exact array
      · obtain ⟨absent, _⟩ | ⟨overlong, _⟩ := loose.array isArray
        · simp [hinitializer] at absent
        · exact long.mp overlong isArray

private theorem legal_iff (source : field.FromSource) :
    field.Legal ↔ field.LooselyLegal ∧ unnoticedOverlong.field field := by
  constructor
  · rintro ⟨legal, array⟩
    refine ⟨⟨legal, fun isArray => ?_⟩, fun token given _ => ?_⟩
    · exact (array isArray).imp id fun h => ⟨by simp [h.1], h.2⟩
    · have isArray : field.type.isArray = true := by
        by_contra scalar
        have := (source.scalar (by simpa using scalar)).2
        simp [this] at given
      obtain ⟨absent, _⟩ | ⟨absent, _⟩ := array isArray
      · exact absent
      · simp [absent] at given
  · rintro ⟨⟨legal, array⟩, unnoticed⟩
    refine ⟨legal, fun isArray => (array isArray).imp id fun ⟨long, initializer, given, braced⟩ =>
      ⟨?_, initializer, given, braced⟩⟩
    cases hlength : field.lengthToken with
    | none => rfl
    | some token =>
      have := unnoticed token hlength (long token hlength)
      rw [this] at given
      simp at given

end IrField

/-- Two sets of rules that agree on what `FromSource` and `rangeRules` allow. -/
private theorem programTyped_congr {r r' : Rules} {program : IrProgram} (source : program.FromSource)
    (range : program.All rangeRules)
    (literal : ∀ literal, literal.FromSource → rangeRules.literal literal → (r.literal literal ↔ r'.literal literal))
    (field : ∀ field, field.FromSource → rangeRules.field field → (r.field field ↔ r'.field field)) :
    ProgramTyped r program ↔ ProgramTyped r' program := by
  have split (r : Rules) : ProgramTyped r program ↔ ProgramTyped ((r.and sourceRules).and rangeRules) program := by
    rw [programTyped_and, programTyped_and, and_iff_left range, and_iff_left source.all]
  have same : (r.and sourceRules).and rangeRules = (r'.and sourceRules).and rangeRules := by
    unfold Rules.and
    congr 1
    · funext l
      exact propext (and_congr_left fun h => and_congr_left fun h' => literal l h'.1 h)
    · funext f
      exact propext (and_congr_left fun h => and_congr_left fun h' => field f h' h)
  rw [split r, split r', same]

theorem accepts_iff {program : IrProgram} (source : program.FromSource) (range : program.All rangeRules) :
    (semanticsAnalyze program).1 = 0 ↔ ProgramTyped looseRules program ∧ program.All rejectedOverlong := by
  have accepted : (semanticsAnalyze program).1 = 0 ↔ (analyzeProgram semanticsNew program).2.error = false := by
    unfold semanticsAnalyze
    dsimp only
    split <;> simp_all
  rw [accepted, analyzeProgram_error source.toSorted, ← programTyped_and]
  refine programTyped_congr source range (fun l h h' => ?_) (fun f h h' => IrField.accepted_iff h h')
  exact (IrLiteral.accepted_iff h h').trans (iff_of_eq (true_and _)).symm

theorem typed_iff {program : IrProgram} (source : program.FromSource) (range : program.All rangeRules) :
    ProgramTyped typeRules program ↔ ProgramTyped looseRules program ∧ program.All unnoticedOverlong := by
  rw [← programTyped_and]
  refine programTyped_congr source range (fun _ _ _ => ?_) (fun f h _ => IrField.legal_iff h)
  exact (iff_of_eq (true_and _)).symm

/-- The checker decides the type system for a program in range exactly when the program breaks a rule
other than the one on array lengths, or has an overlong literal that is rejected just when it also has
an overlong length that goes unnoticed next to an initializer. -/
theorem semanticsAnalyze_decides_iff (program : IrProgram) (source : program.FromSource)
    (range : program.All rangeRules) :
    ((semanticsAnalyze program).1 = 0 ↔ ProgramTyped typeRules program) ↔
      (ProgramTyped looseRules program → (program.All rejectedOverlong ↔ program.All unnoticedOverlong)) := by
  rw [accepts_iff source range, typed_iff source range]
  tauto

private def scalarField : IrField :=
  { node := 0, type := .int, constant := false, identifier := "x", arrayLength := 1, lengthToken := none,
    initializer := none }

private def paddedOne : IrLiteral :=
  { negate := false, type := .int, value := overflowMarker, token := some ⟨true, "00000000000000001".toList⟩ }

/-- `void main() { int x; x = 0x00000000000000001; }` -/
def paddedLiteral : IrProgram where
  imports := []
  fields := []
  methods := [{
    imported := false, returnType := .void, identifier := "main", arguments := []
    block := .mk [scalarField]
      (.cons (.assignment ⟨.scalar 1 "x", .set, some (.literal paddedOne)⟩) .nil) }]

private theorem paddedLiteral_all {r : Rules} (literal : r.literal paddedOne) (field : r.field scalarField) :
    paddedLiteral.All r := by
  refine ⟨by simp [paddedLiteral], fun method mem => ?_⟩
  obtain rfl := List.mem_singleton.mp mem
  refine ⟨by simp, ?_⟩
  simp [IrBlock.All, IrStatements.All, IrStatement.All, IrAssignment.All, IrLocation.All, IrExpression.All,
    literal, field]

private theorem paddedLiteral_fromSource : paddedLiteral.FromSource := by decide +kernel

private theorem paddedLiteral_inRange : paddedLiteral.All rangeRules :=
  paddedLiteral_all (by rintro _ ⟨rfl⟩; unfold IntLiteralToken.InRange; decide)
    ⟨by simp [scalarField], by simp [scalarField]⟩

private theorem paddedLiteral_typed : ProgramTyped typeRules paddedLiteral := by
  refine ⟨by decide, by simp [paddedLiteral], .cons (.mk ⟨by decide, ?_⟩ (.cons (.assignment ?_) .nil)) .nil, ?_⟩
  · intro field mem
    obtain rfl := List.mem_singleton.mp mem
    exact ⟨⟨by simp [scalarField], by simp [scalarField], by simp [scalarField]⟩,
      by simp [scalarField, IrDataType.isArray]⟩
  · exact ⟨scalarField, .int, .scalar rfl, rfl, rfl, by simp, by rintro _ ⟨rfl⟩; exact .literal trivial⟩
  · exact ⟨_, List.mem_singleton_self _, rfl, rfl, rfl⟩

/-- The checker reports an overflow for a literal that denotes one. -/
theorem paddedLiteral_rejected : paddedLiteral.FromSource ∧ paddedLiteral.All rangeRules ∧
    ¬ ((semanticsAnalyze paddedLiteral).1 = 0 ↔ ProgramTyped typeRules paddedLiteral) := by
  refine ⟨paddedLiteral_fromSource, paddedLiteral_inRange, fun same => ?_⟩
  have accepted := same.mpr paddedLiteral_typed
  have rejected : (semanticsAnalyze paddedLiteral).1 = -1 := by decide +kernel
  rw [rejected] at accepted
  exact absurd accepted (by decide)

theorem semanticsAnalyze_decides_iff_paddedLiteral :
    ((semanticsAnalyze paddedLiteral).1 = 0 ↔ ProgramTyped typeRules paddedLiteral) ↔
      (ProgramTyped looseRules paddedLiteral →
        (paddedLiteral.All rejectedOverlong ↔ paddedLiteral.All unnoticedOverlong)) :=
  semanticsAnalyze_decides_iff paddedLiteral paddedLiteral_fromSource paddedLiteral_inRange

end Roast
