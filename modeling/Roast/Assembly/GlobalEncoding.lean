import Roast.Assembly.GlobalInitialization

/-! The stores that initialize the globals as they are printed. An instruction that stores an immediate in memory holds
32 bits of it, and the offset is computed with the 32-bit counter. -/
namespace Roast

/-- The text of a store: `%llu` prints the value as an unsigned number, `%i` the offset as a signed number. -/
structure PrintedStore where
  immediate : Nat
  symbol : String
  displacement : Int
  deriving DecidableEq, Repr

/-- The product `8 * i` has 32 bits. -/
def AssemblyLine.printedStore : AssemblyLine → Option PrintedStore
  | .instruction .movq [.immediate value, .relative symbol displacement] =>
    some ⟨value.toNat, symbol.name, (BitVec.ofNat 32 displacement).toInt⟩
  | _ => none

/-- The output of `generate_global_field_initialization`. -/
def printedStores (field : LlirField) : List PrintedStore :=
  (generateGlobalFieldInitialization field).filterMap AssemblyLine.printedStore

def extendedImmediate (immediate : Nat) : Word := ((BitVec.ofNat 64 immediate).setWidth 32).signExtend 64

/-- The rule of `movq $imm, mem`. -/
def EncodableImmediate (immediate : Nat) : Prop := BitVec.ofNat 64 immediate = extendedImmediate immediate

abbrev DataSection := String → Int → Word

def PrintedStore.execute (data : DataSection) (store : PrintedStore) : DataSection := fun symbol offset =>
  if symbol = store.symbol ∧ offset = store.displacement then extendedImmediate store.immediate
  else data symbol offset

def initializedData (llir : Llir) : DataSection :=
  (llir.fields.flatMap printedStores).foldl PrintedStore.execute fun _ _ => 0

def IrField.storedPositions (field : IrField) : List Nat :=
  (List.range field.arrayLength.toNat).filter fun position => field.declaredValue position ≠ 0

/-- The stores of a global: their immediates obey the rule, each goes to its own word inside the storage of the global,
and afterwards the words hold the literals. -/
structure EncodesInitializer (llir : Llir) (field : IrField) (generated : LlirField) : Prop where
  immediates : ∀ store ∈ printedStores generated, EncodableImmediate store.immediate
  places : printedStores generated = field.storedPositions.map fun position =>
    ⟨(field.declaredValue position).toNat, field.identifier, 8 * position⟩
  inside : ∃ bytes, [.label generated.symbol, .fill bytes, .align 16] <:+: generateGlobalFields llir.fields ∧
    ∀ position ∈ field.storedPositions, 8 * (position : Int) + 8 ≤ bytes
  values : ∀ position : Nat, position < field.arrayLength →
    initializedData llir field.identifier (8 * position) = field.declaredValue position

/-- Every literal of a global has a value of 32 bits, and those other than 0 stand at positions below `2 ^ 28`. -/
def IrProgram.SmallInitializers (program : IrProgram) : Prop :=
  ∀ field ∈ program.fields, ∀ initializer ∈ field.initializer, ∀ position literal,
    initializer.literals[position]? = some literal →
      -2 ^ 31 ≤ (literalToInt64 literal).toInt ∧ (literalToInt64 literal).toInt < 2 ^ 31 ∧
        (literalToInt64 literal ≠ 0 → position < 2 ^ 28)

/-- The immediates are the words that a sign-extended 32-bit number represents. -/
private theorem encodableImmediate_iff (value : Word) :
    EncodableImmediate value.toNat ↔ -2 ^ 31 ≤ value.toInt ∧ value.toInt < 2 ^ 31 := by
  rw [EncodableImmediate, extendedImmediate, BitVec.ofNat_toNat, BitVec.setWidth_eq]
  constructor
  · intro same
    have extended : value.toInt = (value.setWidth 32).toInt := by
      conv_lhs => rw [same]
      exact BitVec.toInt_signExtend_of_le (by decide)
    rw [extended]
    have lower := BitVec.le_toInt (value.setWidth 32)
    have upper := BitVec.toInt_lt (x := value.setWidth 32)
    omega
  · rintro ⟨lower, upper⟩
    apply BitVec.eq_of_toInt_eq
    rw [BitVec.toInt_signExtend_of_le (by decide), BitVec.toInt_setWidth]
    have whole := BitVec.toInt_eq_toNat_cond value
    rw [Int.bmod_def]
    split at whole <;> omega

private theorem printedOffset_eq_iff (position : Nat) :
    (BitVec.ofNat 32 (8 * position)).toInt = 8 * position ↔ position < 2 ^ 28 := by
  rw [BitVec.toInt_ofNat', Int.bmod_def]
  omega

/-- The lines of a global, one for each position that is not skipped. -/
private theorem generateGlobalFieldInitialization_eq (field : IrField) :
    generateGlobalFieldInitialization (field.llirField 0) = field.storedPositions.map fun position =>
      .instruction .movq [.immediate (field.declaredValue position), .relative (field.llirField 0).symbol (8 * position)] := by
  unfold generateGlobalFieldInitialization IrField.storedPositions
  have count : (field.llirField 0).valueCount = field.arrayLength := rfl
  rw [count]
  induction field.arrayLength.toNat with
  | zero => rfl
  | succ n ih =>
    rw [List.range_succ, List.flatMap_append, ih, List.filter_append, List.map_append, List.flatMap_singleton,
      llirField_value]
    by_cases zero : field.declaredValue n = 0
    · rw [if_pos zero, List.filter_singleton, decide_eq_false (not_not.mpr zero)]
      rfl
    · rw [if_neg zero, List.filter_singleton, decide_eq_true zero]
      rfl

private theorem printedStores_eq (field : IrField) :
    printedStores (field.llirField 0) = field.storedPositions.map fun position =>
      ⟨(field.declaredValue position).toNat, field.identifier, (BitVec.ofNat 32 (8 * position)).toInt⟩ := by
  rw [printedStores, generateGlobalFieldInitialization_eq, List.filterMap_map, ← List.filterMap_eq_map]
  rfl

private theorem mem_storedPositions {field : IrField} {position : Nat} :
    position ∈ field.storedPositions ↔ (position : Int) < field.arrayLength ∧ field.declaredValue position ≠ 0 := by
  rw [IrField.storedPositions, List.mem_filter, List.mem_range, Int.lt_toNat, decide_eq_true_iff]

/-- A word holds what all stores to it write, once there is a store. -/
private theorem foldl_execute {symbol : String} {offset : Int} {word : Word} {stores : List PrintedStore}
    (same : ∀ store ∈ stores, symbol = store.symbol → offset = store.displacement →
      extendedImmediate store.immediate = word) {data : DataSection}
    (written : data symbol offset = word ∨ ∃ store ∈ stores, symbol = store.symbol ∧ offset = store.displacement) :
    stores.foldl PrintedStore.execute data symbol offset = word := by
  induction stores generalizing data with
  | nil => simpa using written
  | cons store rest ih =>
    rw [List.forall_mem_cons] at same
    rw [List.foldl_cons]
    apply ih same.2
    rw [PrintedStore.execute]
    by_cases here : symbol = store.symbol ∧ offset = store.displacement
    · rw [if_pos here]
      exact .inl (same.1 here.1 here.2)
    · rw [if_neg here]
      refine written.imp id fun ⟨later, mem, key⟩ => ?_
      rcases List.mem_cons.mp mem with rfl | mem
      · exact absurd key here
      · exact ⟨later, mem, key⟩

section
variable {program : IrProgram} {llir : Llir}

/-- The stores of all globals leave the declared values when each of them is printed as it should be. -/
private theorem initializedData_eq (lowered : Lowered program llir)
    (immediates : ∀ field ∈ program.fields, ∀ position ∈ field.storedPositions,
      EncodableImmediate (field.declaredValue position).toNat)
    (offsets : ∀ field ∈ program.fields, ∀ position ∈ field.storedPositions, position < 2 ^ 28)
    {field : IrField} (mem : field ∈ program.fields) {position : Nat} (small : (position : Int) < field.arrayLength) :
    initializedData llir field.identifier (8 * position) = field.declaredValue position := by
  have extended {field : IrField} (mem : field ∈ program.fields) {position : Nat} (stored : position ∈ field.storedPositions) :
      extendedImmediate (field.declaredValue position).toNat = field.declaredValue position := by
    have same := immediates field mem position stored
    rw [EncodableImmediate, BitVec.ofNat_toNat, BitVec.setWidth_eq] at same
    exact same.symm
  have distinct : (program.fields.map IrField.identifier).Nodup := lowered.ready.globals_distinct
  have listed {store : PrintedStore} : store ∈ llir.fields.flatMap printedStores ↔
      ∃ field ∈ program.fields, ∃ position ∈ field.storedPositions,
        store = ⟨(field.declaredValue position).toNat, field.identifier, (BitVec.ofNat 32 (8 * position)).toInt⟩ := by
    rw [lowered.fields, List.flatMap_map]
    simp only [List.mem_flatMap, printedStores_eq, List.mem_map, eq_comm]
  unfold initializedData
  apply foldl_execute
  · intro store mem' symbol offset
    obtain ⟨other, declared, position', stored, rfl⟩ := listed.mp mem'
    obtain rfl : other = field := List.inj_on_of_nodup_map distinct declared mem symbol.symm
    have exact := (printedOffset_eq_iff position').mpr (offsets other declared position' stored)
    have equal : position' = position := by
      have offset : 8 * (position : Int) = (BitVec.ofNat 32 (8 * position')).toInt := offset
      omega
    rw [← equal]
    exact extended declared stored
  · by_cases zero : field.declaredValue position = 0
    · exact .inl zero.symm
    · have stored := mem_storedPositions.mpr ⟨small, zero⟩
      exact .inr ⟨_, listed.mpr ⟨field, mem, position, stored, rfl⟩, rfl,
        ((printedOffset_eq_iff position).mpr (offsets field mem position stored)).symm⟩

/-- The storage of a global is printed in the data section. -/
private theorem generateGlobalFields_infix {fields : List LlirField} {field : LlirField} (mem : field ∈ fields) :
    [.label field.symbol, .fill (8 * field.valueCount), .align 16] <:+: generateGlobalFields fields := by
  obtain ⟨before, after, rfl⟩ := List.append_of_mem mem
  refine ⟨generateGlobalFields before, generateGlobalFields after, ?_⟩
  simp [generateGlobalFields]

/-- The initializers are encoded exactly if each stored value fits in 32 bits and lies below position 2^28. -/
private theorem encodesInitializer_iff (lowered : Lowered program llir) :
    List.Forall₂ (EncodesInitializer llir) program.fields llir.fields ↔
      ∀ field ∈ program.fields, ∀ position ∈ field.storedPositions,
        (-2 ^ 31 ≤ (field.declaredValue position).toInt ∧ (field.declaredValue position).toInt < 2 ^ 31) ∧
          position < 2 ^ 28 := by
  rw [lowered.fields, List.forall₂_map_right_iff, List.forall₂_same]
  constructor
  · intro encodes field mem position stored
    have encoded := encodes field mem
    have printed := printedStores_eq field
    refine ⟨?_, ?_⟩
    · rw [← encodableImmediate_iff]
      have listed := List.mem_map_of_mem (f := fun position : Nat => (⟨(field.declaredValue position).toNat,
        field.identifier, (BitVec.ofNat 32 (8 * position)).toInt⟩ : PrintedStore)) stored
      rw [← printed] at listed
      exact encoded.immediates _ listed
    · rw [← printedOffset_eq_iff]
      have places := printed.symm.trans encoded.places
      have place := List.map_inj_left.mp places position stored
      exact congrArg PrintedStore.displacement place
  · intro small field mem
    have immediates : ∀ field ∈ program.fields, ∀ position ∈ field.storedPositions,
        EncodableImmediate (field.declaredValue position).toNat := by
      intro field mem position stored
      exact (encodableImmediate_iff _).mpr (small field mem position stored).1
    constructor
    · intro store printed
      rw [printedStores_eq] at printed
      obtain ⟨position, stored, rfl⟩ := List.mem_map.mp printed
      exact immediates field mem position stored
    · rw [printedStores_eq]
      apply List.map_congr_left
      intro position stored
      rw [(printedOffset_eq_iff position).mpr (small field mem position stored).2]
    · have declared : field.llirField 0 ∈ llir.fields := by
        rw [lowered.fields]
        exact List.mem_map_of_mem mem
      refine ⟨8 * field.arrayLength, generateGlobalFields_infix declared, fun position stored => ?_⟩
      have inside := (mem_storedPositions.mp stored).1
      omega
    · intro position inside
      exact initializedData_eq lowered immediates (fun field mem position stored => (small field mem position stored).2)
        mem inside

end

/-- A literal other than 0 is stored at its position. -/
private theorem storedPositions_iff {field : IrField} (ready : field.Ready) {position : Nat} :
    position ∈ field.storedPositions ↔ ∃ initializer ∈ field.initializer, ∃ literal,
      initializer.literals[position]? = some literal ∧ field.declaredValue position = literalToInt64 literal ∧
        literalToInt64 literal ≠ 0 := by
  rw [mem_storedPositions]
  unfold IrField.declaredValue
  cases given : field.initializer with
  | none => simp
  | some initializer =>
    have count := ready.count initializer given
    simp only [Option.mem_def, Option.some.injEq, exists_eq_left', List.getD_eq_getElem?_getD, List.getElem?_map]
    cases found : initializer.literals[position]? with
    | none => simp
    | some literal =>
      have inside := (List.getElem?_eq_some_iff.mp found).1
      simp only [Option.map_some, Option.getD_some, Option.some.injEq, exists_eq_left', true_and]
      exact and_iff_right (by omega)

private theorem smallInitializers_iff {program : IrProgram} (ready : ∀ field ∈ program.fields, field.Ready) :
    program.SmallInitializers ↔ ∀ field ∈ program.fields, ∀ position ∈ field.storedPositions,
      (-2 ^ 31 ≤ (field.declaredValue position).toInt ∧ (field.declaredValue position).toInt < 2 ^ 31) ∧
        position < 2 ^ 28 := by
  unfold IrProgram.SmallInitializers
  refine forall₂_congr fun field mem => ?_
  constructor
  · intro small position stored
    obtain ⟨initializer, given, literal, found, value, nonzero⟩ := (storedPositions_iff (ready field mem)).mp stored
    obtain ⟨lower, upper, place⟩ := small initializer given position literal found
    rw [value]
    exact ⟨⟨lower, upper⟩, place nonzero⟩
  · intro small initializer given position literal found
    by_cases zero : literalToInt64 literal = 0
    · rw [zero]
      exact ⟨by decide, by decide, fun nonzero => absurd rfl nonzero⟩
    · have value : field.declaredValue position = literalToInt64 literal := by
        rw [IrField.declaredValue, Option.mem_def.mp given]
        simp [List.getD_eq_getElem?_getD, found]
      have stored := small position ((storedPositions_iff (ready field mem)).mpr ⟨initializer, given, literal, found, value, zero⟩)
      rw [value] at stored
      exact ⟨stored.1.1, stored.1.2, fun _ => stored.2⟩

/-- The checker keeps the initializers. -/
private theorem SameOutline.smallInitializers_iff {program analyzed : IrProgram} (same : SameOutline program analyzed) :
    analyzed.SmallInitializers ↔ program.SmallInitializers := by
  rw [IrProgram.SmallInitializers, same.fields, List.forall_mem_map]
  refine forall₂_congr fun field _ => ?_
  have initializer : field.analyzed.initializer = field.initializer := by
    unfold IrField.analyzed
    split <;> rfl
  rw [initializer]

/-- The globals of an accepted program are encoded faithfully exactly when the literals are small. The loop over a global
counts with 32 bits: for a global of `2 ^ 32` elements or more it does not end and no assembly is printed, and the stores
are then those that it would print with a wider counter. -/
theorem accepts_encodesInitializers_iff {program analyzed : IrProgram} (source : program.FromSource)
    (accepted : Accepts program analyzed) {llir : Llir} (generated : llirGeneratorGenerateLlir analyzed = some llir) :
    List.Forall₂ (EncodesInitializer llir) analyzed.fields llir.fields ↔ program.SmallInitializers := by
  have ready := accepts_ready source accepted
  rw [encodesInitializer_iff (ready.lowered generated), ← (accepts_sameOutline source accepted).smallInitializers_iff,
    smallInitializers_iff ready.typed.fields]

/-- `int g = 2147483648; void main() { }` -/
def wideGlobal : IrProgram where
  imports := []
  fields := [{
    node := 0, type := .int, constant := false, identifier := "g", arrayLength := 1, lengthToken := none
    initializer := some ⟨false, [⟨false, .int, 2147483648, some ⟨false, "2147483648".toList⟩⟩]⟩ }]
  methods := [{ imported := false, returnType := .void, identifier := "main", arguments := [], block := .mk [] .nil }]

def wideGlobalLlir : Llir := (generateLlir (semanticsAnalyze wideGlobal).2).1

private theorem wideGlobal_generated : wideGlobal.FromSource ∧ Accepts wideGlobal (semanticsAnalyze wideGlobal).2 ∧
    llirGeneratorGenerateLlir (semanticsAnalyze wideGlobal).2 = some wideGlobalLlir :=
  ⟨by decide +kernel, Prod.ext (by decide +kernel) rfl, by decide +kernel⟩

theorem accepts_encodesInitializers_iff_wideGlobal :
    List.Forall₂ (EncodesInitializer wideGlobalLlir) (semanticsAnalyze wideGlobal).2.fields wideGlobalLlir.fields ↔
      wideGlobal.SmallInitializers :=
  accepts_encodesInitializers_iff wideGlobal_generated.1 wideGlobal_generated.2.1 wideGlobal_generated.2.2

/-- The immediate 2147483648 is printed, which 32 bits cannot hold. -/
theorem wideGlobal_unencodable : wideGlobal.FromSource ∧ Accepts wideGlobal (semanticsAnalyze wideGlobal).2 ∧
    llirGeneratorGenerateLlir (semanticsAnalyze wideGlobal).2 = some wideGlobalLlir ∧
    ¬ List.Forall₂ (EncodesInitializer wideGlobalLlir) (semanticsAnalyze wideGlobal).2.fields wideGlobalLlir.fields := by
  refine ⟨wideGlobal_generated.1, wideGlobal_generated.2.1, wideGlobal_generated.2.2, fun encodes => ?_⟩
  have all : ∀ generated ∈ wideGlobalLlir.fields, ∀ store ∈ printedStores generated, EncodableImmediate store.immediate := by
    intro generated mem
    obtain ⟨field, encoded⟩ := forall₂_left_of_mem encodes mem
    exact encoded.immediates
  have printed : (wideGlobalLlir.fields.flatMap printedStores).map PrintedStore.immediate = [2147483648] := by
    decide +kernel
  have listed : 2147483648 ∈ (wideGlobalLlir.fields.flatMap printedStores).map PrintedStore.immediate := by
    rw [printed]
    exact List.mem_singleton_self _
  obtain ⟨store, mem, immediate⟩ := List.mem_map.mp listed
  obtain ⟨generated, mem, mem'⟩ := List.mem_flatMap.mp mem
  have encodable := all generated mem store mem'
  rw [immediate] at encodable
  revert encodable
  unfold EncodableImmediate extendedImmediate
  decide

end Roast
