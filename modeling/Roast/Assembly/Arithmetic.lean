import Roast.Assembly.Calls
import Roast.Assembly.LlirMachine

/-! The arithmetic of the emitted instructions: the flags of a comparison, the division of 128 bits and the conversion of
conditions to words. -/
namespace Roast
open Processor

private theorem lowByte_merge (old value : Word) : lowByte ((old &&& ~~~0xff) ||| lowByte value) = lowByte value := by
  ext i inside
  simp only [lowByte, BitVec.getElem_and, BitVec.getElem_or, BitVec.getElem_not]
  cases (0xff : Word)[i] <;> simp

/-- The sign and the overflow of a difference tell which operand is less. -/
theorem less_flags (left right : Word) :
    ((compareFlags left right).sign != (compareFlags left right).overflow) = left.slt right := by
  have difference : (left - right).toInt = left.toInt - right.toInt ∨
      (left - right).toInt = left.toInt - right.toInt - 2 ^ 64 ∨
      (left - right).toInt = left.toInt - right.toInt + 2 ^ 64 := by
    have := left.toInt_lt
    have := right.toInt_lt
    have := left.le_toInt
    have := right.le_toInt
    rw [BitVec.toInt_sub, Int.bmod_def]
    split <;> omega
  have := left.toInt_lt
  have := right.toInt_lt
  have := left.le_toInt
  have := right.le_toInt
  have := (left - right).toInt_lt
  have := (left - right).le_toInt
  simp only [compareFlags, BitVec.slt_eq_decide, BitVec.msb_eq_toInt]
  by_cases negative : (left - right).toInt < 0 <;> by_cases left_negative : left.toInt < 0 <;>
    by_cases right_negative : right.toInt < 0 <;> by_cases less : left.toInt < right.toInt <;>
    simp only [negative, left_negative, right_negative, less, decide_true, decide_false, bne_self_eq_false, Bool.and_true,
      Bool.and_false, Bool.true_bne, Bool.false_bne, Bool.not_false] <;> omega

private theorem zero_flag (left right : Word) : (compareFlags left right).zero = (left == right) := rfl

theorem lessEqual_flags (left right : Word) :
    ((compareFlags left right).zero || (compareFlags left right).sign != (compareFlags left right).overflow) =
      left.sle right := by
  rw [less_flags, zero_flag, BitVec.sle_eq_not_slt, BitVec.slt_eq_decide, BitVec.slt_eq_decide, Bool.eq_iff_iff]
  simp only [Bool.or_eq_true, beq_iff_eq, decide_eq_true_eq, Bool.not_eq_true', decide_eq_false_iff_not]
  rw [← BitVec.toInt_inj]
  omega

theorem greaterEqual_flags (left right : Word) :
    ((compareFlags left right).sign == (compareFlags left right).overflow) = right.sle left := by
  have less := less_flags left right
  rw [BitVec.sle_eq_not_slt, ← less, bne, Bool.not_not]

theorem greater_flags (left right : Word) :
    (!(compareFlags left right).zero && (compareFlags left right).sign == (compareFlags left right).overflow) =
      right.slt left := by
  rw [greaterEqual_flags, zero_flag, BitVec.slt_eq_sle_and_ne, Bool.and_comm, bne, Bool.beq_comm]

/-- `cqto` makes of a word the number of 128 bits with its value. -/
private theorem toInt_extended (low : Word) : ((if low.msb then (-1 : Word) else 0) ++ low).toInt = low.toInt := by
  rw [BitVec.toInt_append, if_neg (by decide), BitVec.msb_eq_toInt]
  have value := BitVec.toInt_eq_toNat_cond low
  by_cases negative : low.toInt < 0
  · rw [decide_eq_true negative, if_pos rfl, show (-1 : Word).toInt = -1 from rfl]
    split at value <;> omega
  · rw [decide_eq_false negative, if_neg (by decide), show (0 : Word).toInt = 0 from rfl]
    split at value <;> omega

/-- The quotient and the remainder of two words; there is no fault exactly where they are defined. -/
theorem divideLong_extended (left right : Word) :
    divideLong (if left.msb then -1 else 0) left right =
      if divisionTraps left right then none else some (left.sdiv right, left.srem right) := by
  have low := left.le_toInt
  have high := left.toInt_lt
  rw [divideLong, toInt_extended]
  by_cases zero : right = 0
  · rw [if_pos (.inl zero), if_pos (.inl zero)]
  by_cases extreme : left = BitVec.intMin 64 ∧ right = -1
  · obtain ⟨rfl, rfl⟩ := extreme
    rw [if_pos (by decide), if_pos (by decide)]
  · have quotient : (left.sdiv right).toInt = left.toInt.tdiv right.toInt :=
      BitVec.toInt_sdiv_of_ne_or_ne left right (not_and_or.mp extreme)
    have remainder : (left.srem right).toInt = left.toInt.tmod right.toInt := BitVec.toInt_srem left right
    have inRange := (left.sdiv right).toInt_lt
    have inRange' := (left.sdiv right).le_toInt
    rw [← quotient, ← remainder, BitVec.ofInt_toInt, BitVec.ofInt_toInt, if_neg, if_neg]
    · rintro (impossible | impossible)
      · exact zero impossible
      · exact extreme impossible
    · rintro (impossible | impossible | impossible)
      · exact zero impossible
      · omega
      · omega

def SameBase (s s' : Processor) : Prop := s'.registers .rbp = s.registers .rbp ∧ s'.memory = s.memory

theorem SameBase.trans {s s' s'' : Processor} (first : SameBase s s') (second : SameBase s' s'') : SameBase s s'' :=
  ⟨second.1.trans first.1, second.2.trans first.2⟩

private theorem read_al (s : Processor) (value : Word) : (s.write .al value).read .al = lowByte value := by
  show lowByte (Function.update s.registers .rax _ .rax) = _
  rw [Function.update_self]
  exact lowByte_merge _ _

section
variable (symbols : String → Word) {s : Processor}

/-- A set instruction writes its condition to the low byte. -/
private theorem executeAssembly_set {flags : Flags} {set : Mnemonic} {condition : Bool} (known : s.flags = some flags)
    (met : set.condition flags = some condition) : ∃ s', executeAssembly symbols s (.instruction set [.register .al]) =
      some s' ∧ s'.read .al = boolWord condition ∧ SameBase s s' := by
  refine ⟨s.write .al (if condition then 1 else 0), ?_, ?_, rfl, rfl⟩
  · cases set
    case sete | setne | setl | setle | setge | setg =>
      show s.flags >>= _ = _
      rw [known, Option.bind_eq_bind, Option.bind_some, met]
      rfl
    all_goals cases met
  · rw [read_al, boolWord]
    cases condition <;> decide

private theorem executeAssembly_and {value : Word} (known : s.read .al = value) : ∃ s',
    executeAssembly symbols s (.instruction .andb [.immediate 1, .register .al]) = some s' ∧
      s'.read .al = lowByte (value &&& 1) ∧ SameBase s s' :=
  ⟨(s.withFlags none).write .al (s.read .al &&& 1), rfl, by rw [read_al, known], rfl, rfl⟩

private theorem executeAssembly_xor {value : Word} (known : s.read .al = value) : ∃ s',
    executeAssembly symbols s (.instruction .xorb [.immediate (-1), .register .al]) = some s' ∧
      s'.read .al = lowByte (value ^^^ -1) ∧ SameBase s s' :=
  ⟨(s.withFlags none).write .al (s.read .al ^^^ -1), rfl, by rw [read_al, known], rfl, rfl⟩

/-- The two instructions that extend `al` through `eax`. -/
private theorem executeLines_extend {condition : Bool} (known : s.read .al = boolWord condition) : ∃ s',
    executeLines symbols s [.instruction .movzbl [.register .al, .register .eax], .instruction .cltq []] = some s' ∧
      s'.registers .rax = boolWord condition ∧ SameBase s s' := by
  refine ⟨(s.write .eax (s.read .al)).write .rax ((((s.write .eax (s.read .al)).read .rax).setWidth 32).signExtend 64),
    rfl, ?_, rfl, rfl⟩
  show (((Function.update s.registers .rax (s.read .al &&& 0xffffffff) .rax).setWidth 32).signExtend 64) = _
  rw [Function.update_self, known]
  cases condition <;> decide

private theorem executeAssembly_mask {condition : Bool} (known : s.read .al = boolWord condition) : ∃ s',
    executeAssembly symbols s (.instruction .andb [.immediate 1, .register .al]) = some s' ∧
      s'.read .al = boolWord condition ∧ SameBase s s' := by
  obtain ⟨s', run, value, same⟩ := executeAssembly_and symbols known
  refine ⟨s', run, ?_, same⟩
  rw [value]
  cases condition <;> decide

private theorem executeAssembly_compare :
    executeAssembly symbols s (.instruction .cmpq [.register .r11, .register .r10]) =
    some (s.withFlags (some (compareFlags (s.registers .r10) (s.registers .r11)))) := rfl

/-- A comparison for equality leaves 0 or 1. -/
private theorem executeLines_equality {set : Mnemonic} {condition : Bool}
    (met : set.condition (compareFlags (s.registers .r10) (s.registers .r11)) = some condition) :
    ∃ s', executeLines symbols s (equalityInstructions set).1 = some s' ∧
      s'.registers (equalityInstructions set).2 = boolWord condition ∧ SameBase s s' := by
  obtain ⟨s1, first, value1, same1⟩ := executeAssembly_set symbols
    (s := s.withFlags (some (compareFlags (s.registers .r10) (s.registers .r11)))) rfl met
  obtain ⟨s2, second, value2, same2⟩ := executeAssembly_mask symbols value1
  obtain ⟨s3, last, value3, same3⟩ := executeLines_extend symbols value2
  refine ⟨s3, ?_, value3, SameBase.trans (show SameBase s s1 from same1) (same2.trans same3)⟩
  rw [equalityInstructions, executeLines_cons, executeAssembly_compare, Option.bind_eq_bind, Option.bind_some,
    executeLines_cons, first, Option.bind_eq_bind, Option.bind_some, executeLines_cons, second]
  exact last

/-- A comparison for order leaves 0 or 1. -/
private theorem executeLines_order {set : Mnemonic} {condition : Bool}
    (met : set.condition (compareFlags (s.registers .r10) (s.registers .r11)) = some condition) :
    ∃ s', executeLines symbols s (orderInstructions set).1 = some s' ∧
      s'.registers (orderInstructions set).2 = boolWord condition ∧ SameBase s s' := by
  obtain ⟨s1, first, value1, same1⟩ := executeAssembly_set symbols
    (s := s.withFlags (some (compareFlags (s.registers .r10) (s.registers .r11)))) rfl met
  obtain ⟨s2, second, value2, same2⟩ := executeAssembly_mask symbols value1
  refine ⟨s2.write .r10 (s2.read .al), ?_, ?_, SameBase.trans (show SameBase s s1 from same1) (same2.trans ⟨rfl, rfl⟩)⟩
  · rw [orderInstructions, executeLines_cons, executeAssembly_compare, Option.bind_eq_bind, Option.bind_some,
      executeLines_cons, first, Option.bind_eq_bind, Option.bind_some, executeLines_cons, second]
    rfl
  · show Function.update s2.registers .r10 (s2.read .al) .r10 = _
    rw [Function.update_self, value2]

/-- The division leaves the quotient in `rax` and the remainder in `rdx`, or faults. -/
private theorem executeLines_division (result : Register) :
    executeLines symbols s (divisionInstructions result).1 =
      (divideLong (if (s.registers .r10).msb then -1 else 0) (s.registers .r10) (s.registers .r11)).map fun results =>
        ((((s.write .rax (s.registers .r10)).write .rdx (if (s.registers .r10).msb then -1 else 0)).withFlags none).write
          .rax results.1).write .rdx results.2 := by
  have moved : executeAssembly symbols s (.instruction .movq [.register .r10, .register .rax]) =
      some (s.write .rax (s.registers .r10)) := rfl
  have extended : executeAssembly symbols (s.write .rax (s.registers .r10)) (.instruction .cqto []) =
      some ((s.write .rax (s.registers .r10)).write .rdx (if (s.registers .r10).msb then -1 else 0)) := rfl
  rw [divisionInstructions, executeLines_cons, moved, Option.bind_eq_bind, Option.bind_some, executeLines_cons, extended,
    Option.bind_eq_bind, Option.bind_some]
  show (divideLong (if (s.registers .r10).msb then -1 else 0) (s.registers .r10) (s.registers .r11) >>= _) >>= _ = _
  cases divideLong (if (s.registers .r10).msb then -1 else 0) (s.registers .r10) (s.registers .r11) with
  | none => rfl
  | some results => rfl

/-- The instructions of a binary assignment compute its value where it has one, and otherwise they fault. -/
private theorem executeLines_binary (type : LlirBinaryType) :
    (∀ value, type.apply (s.registers .r10) (s.registers .r11) = some value → ∃ s',
      executeLines symbols s (binaryInstructions type).1 = some s' ∧
      s'.registers (binaryInstructions type).2 = value ∧ SameBase s s') ∧
    (type.apply (s.registers .r10) (s.registers .r11) = none → executeLines symbols s (binaryInstructions type).1 = none) := by
  have defined {value : Word} (known : type.apply (s.registers .r10) (s.registers .r11) = some value)
      (run : ∃ s', executeLines symbols s (binaryInstructions type).1 = some s' ∧
        s'.registers (binaryInstructions type).2 = value ∧ SameBase s s') :
      (∀ value, type.apply (s.registers .r10) (s.registers .r11) = some value → ∃ s',
        executeLines symbols s (binaryInstructions type).1 = some s' ∧
        s'.registers (binaryInstructions type).2 = value ∧ SameBase s s') ∧
      (type.apply (s.registers .r10) (s.registers .r11) = none →
        executeLines symbols s (binaryInstructions type).1 = none) := by
    rw [known]
    refine ⟨fun other same => Option.some.inj same ▸ run, fun impossible => ?_⟩
    cases impossible
  cases type with
  | add => exact defined rfl ⟨_, rfl, rfl, rfl, rfl⟩
  | subtract => exact defined rfl ⟨_, rfl, rfl, rfl, rfl⟩
  | multiply => exact defined rfl ⟨_, rfl, rfl, rfl, rfl⟩
  | equal => exact defined rfl (executeLines_equality symbols rfl)
  | notEqual => exact defined rfl (executeLines_equality symbols rfl)
  | less =>
    exact defined rfl (executeLines_order symbols (congrArg some (less_flags _ _)))
  | lessEqual =>
    exact defined rfl (executeLines_order symbols (congrArg some (lessEqual_flags _ _)))
  | greater =>
    exact defined rfl (executeLines_order symbols (congrArg some (greater_flags _ _)))
  | greaterEqual =>
    exact defined rfl (executeLines_order symbols (congrArg some (greaterEqual_flags _ _)))
  | divide =>
    have run := executeLines_division symbols (s := s) .rax
    rw [divideLong_extended] at run
    rw [LlirBinaryType.apply]
    split
    · rename_i traps
      rw [if_pos traps] at run
      exact ⟨(fun value impossible => by cases impossible), fun _ => run⟩
    · rename_i fine
      rw [if_neg fine] at run
      refine ⟨fun value known => ⟨_, run, ?_, rfl, rfl⟩, (fun impossible => by cases impossible)⟩
      cases known
      rfl
  | modulo =>
    have run := executeLines_division symbols (s := s) .rdx
    rw [divideLong_extended] at run
    rw [LlirBinaryType.apply]
    split
    · rename_i traps
      rw [if_pos traps] at run
      exact ⟨(fun value impossible => by cases impossible), fun _ => run⟩
    · rename_i fine
      rw [if_neg fine] at run
      refine ⟨fun value known => ⟨_, run, ?_, rfl, rfl⟩, (fun impossible => by cases impossible)⟩
      cases known
      rfl

/-- The instructions of a unary operator compute what the LLIR computes. -/
private theorem executeLines_unary (type : LlirUnaryType) : ∃ s',
    executeLines symbols s (unaryInstructions type).1 = some s' ∧
      s'.registers (unaryInstructions type).2 = type.apply (s.registers .r10) ∧ SameBase s s' := by
  cases type with
  | move => exact ⟨s, rfl, rfl, rfl, rfl⟩
  | negate => exact ⟨_, rfl, rfl, rfl, rfl⟩
  | not =>
    have compared : executeAssembly symbols s (.instruction .cmpq [.immediate 0, .register .r10]) =
        some (s.withFlags (some (compareFlags (s.registers .r10) 0))) := rfl
    have met : Mnemonic.setne.condition (compareFlags (s.registers .r10) 0) = some !(s.registers .r10 == 0) := rfl
    obtain ⟨s1, first, value1, same1⟩ := executeAssembly_set symbols
      (s := s.withFlags (some (compareFlags (s.registers .r10) 0))) rfl met
    obtain ⟨s2, second, value2, same2⟩ := executeAssembly_xor symbols value1
    obtain ⟨s3, third, value3, same3⟩ := executeAssembly_and symbols value2
    have flipped : s3.read .al = boolWord (s.registers .r10 == 0) := by
      rw [value3]
      cases s.registers .r10 == 0 <;> decide
    obtain ⟨s4, last, value4, same4⟩ := executeLines_extend symbols flipped
    refine ⟨s4, ?_, value4, SameBase.trans (show SameBase s s1 from same1) (same2.trans (same3.trans same4))⟩
    rw [unaryInstructions, executeLines_cons, compared, Option.bind_eq_bind, Option.bind_some, executeLines_cons, first,
      Option.bind_eq_bind, Option.bind_some, executeLines_cons, second, Option.bind_eq_bind, Option.bind_some,
      executeLines_cons, third]
    exact last

variable (g : CodeGenerator) {destination : LlirField}
  (stored : (fieldPlace g symbols (s.registers .rbp) destination).toNat % 8 = 0)
include stored

theorem executeLines_storeResult {s' : Processor} (same : SameBase s s') (register : Register)
    (wide : register ≠ .al ∧ register ≠ .eax) : ∃ s'',
      executeLines symbols s' (storeFromRegister g destination register) = some s'' ∧
      s''.memory = Function.update s.memory (fieldPlace g symbols (s.registers .rbp) destination) (s'.registers register) := by
  rw [← same.1] at stored
  refine ⟨_, executeLines_storeFromRegister g symbols stored wide, ?_⟩
  rw [← same.1, ← same.2]
  rfl

/-- The code of a unary assignment stores its value. -/
theorem executeLines_unaryAssignment (type : LlirUnaryType) {source : LlirOperand}
    (aligned : ∀ field, source = .field field → (fieldPlace g symbols (s.registers .rbp) field).toNat % 8 = 0) : ∃ s',
    executeLines symbols s (generateAssignmentLines g (.unary type source destination)) = some s' ∧
      s'.memory = Function.update s.memory (fieldPlace g symbols (s.registers .rbp) destination)
        (type.apply (operandWord g symbols (s.registers .rbp) s.memory source)) := by
  have loaded := @executeLines_loadToRegister g symbols s source aligned .r10 (by decide)
  obtain ⟨s1, run, value, same⟩ := executeLines_unary symbols
    (s := s.setRegister .r10 (operandWord g symbols (s.registers .rbp) s.memory source)) type
  obtain ⟨s2, last, memory⟩ := executeLines_storeResult symbols g stored same
    (unaryInstructions type).2 (by cases type <;> decide)
  refine ⟨s2, ?_, ?_⟩
  · rw [generateAssignmentLines, executeLines_append, executeLines_append, loaded, Option.bind_eq_bind, Option.bind_some, run]
    exact last
  · rw [memory, value]
    rfl

/-- The code of a binary assignment stores its value, and faults where it has none. -/
theorem executeLines_binaryAssignment (type : LlirBinaryType) {left right : LlirOperand}
    (alignedLeft : ∀ field, left = .field field → (fieldPlace g symbols (s.registers .rbp) field).toNat % 8 = 0)
    (alignedRight : ∀ field, right = .field field → (fieldPlace g symbols (s.registers .rbp) field).toNat % 8 = 0) :
    (∀ value, type.apply (operandWord g symbols (s.registers .rbp) s.memory left)
        (operandWord g symbols (s.registers .rbp) s.memory right) = some value → ∃ s',
      executeLines symbols s (generateAssignmentLines g (.binary type left right destination)) = some s' ∧
      s'.memory = Function.update s.memory (fieldPlace g symbols (s.registers .rbp) destination) value) ∧
    (type.apply (operandWord g symbols (s.registers .rbp) s.memory left)
        (operandWord g symbols (s.registers .rbp) s.memory right) = none →
      executeLines symbols s (generateAssignmentLines g (.binary type left right destination)) = none) := by
  have loadedLeft := @executeLines_loadToRegister g symbols s left alignedLeft .r10 (by decide)
  have loadedRight := @executeLines_loadToRegister g symbols
    (s.setRegister .r10 (operandWord g symbols (s.registers .rbp) s.memory left)) right alignedRight .r11 (by decide)
  obtain ⟨defined, undefined⟩ := executeLines_binary symbols
    (s := (s.setRegister .r10 (operandWord g symbols (s.registers .rbp) s.memory left)).setRegister .r11
      (operandWord g symbols (s.registers .rbp) s.memory right)) type
  have start (rest : List AssemblyLine) : executeLines symbols s
      (loadToRegister g left .r10 ++ loadToRegister g right .r11 ++ rest) =
      executeLines symbols ((s.setRegister .r10 (operandWord g symbols (s.registers .rbp) s.memory left)).setRegister .r11
        (operandWord g symbols (s.registers .rbp) s.memory right)) rest := by
    rw [executeLines_append, executeLines_append, loadedLeft, Option.bind_eq_bind, Option.bind_some, loadedRight]
    rfl
  rw [generateAssignmentLines, List.append_assoc, start, executeLines_append]
  constructor
  · intro value known
    obtain ⟨s1, run, result, same⟩ := defined value known
    obtain ⟨s2, last, memory⟩ := executeLines_storeResult symbols g stored same
      (binaryInstructions type).2 (by cases type <;> decide)
    refine ⟨s2, ?_, ?_⟩
    · rw [run]
      exact last
    · rw [memory, result]
  · intro none_left
    rw [undefined none_left]
    rfl

end

end Roast
