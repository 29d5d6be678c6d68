import Roast.Assembly.CodeGenerator
import Roast.Assembly.Resolved

/-! The symbols of the generated assembly. Names of the program, numbered labels and the `exit` of the C
library share one name space, so the labels are sound exactly when the program keeps off the others. -/
namespace Roast

def definitions (lines : List AssemblyLine) : List AssemblySymbol :=
  lines.filterMap fun line =>
    match line with
    | .label symbol => some symbol
    | _ => none

def AssemblyOperand.symbols : AssemblyOperand → List AssemblySymbol
  | .relative symbol _ => [symbol]
  | _ => []

def AssemblyLine.symbols : AssemblyLine → List AssemblySymbol
  | .instruction _ operands => operands.flatMap AssemblyOperand.symbols
  | .jump _ target => [target]
  | .call target => [target]
  | _ => []

def references (lines : List AssemblyLine) : List AssemblySymbol := lines.flatMap AssemblyLine.symbols

def LlirOperand.strings : LlirOperand → List String
  | .string text => [text]
  | _ => []

def LlirAssignment.strings : LlirAssignment → List String
  | .methodCall _ arguments _ => arguments.flatMap LlirOperand.strings
  | _ => []

def LlirBlock.strings (block : LlirBlock) : List String := block.assignments.flatMap LlirAssignment.strings

def LlirMethod.strings (method : LlirMethod) : List String := method.blocks.flatMap LlirBlock.strings

def Llir.strings (llir : Llir) : List String := llir.methods.flatMap LlirMethod.strings

/-- Labels are distinct, a reference denotes what it means, every string has one label, and the `exit` that
is called is not one of the program. The names of `imports` are left to the linker. -/
structure Hygienic (imports : List String) (llir : Llir) (lines : List AssemblyLine) : Prop where
  distinct : ((definitions lines).map AssemblySymbol.name).Nodup
  resolved : ∀ symbol ∈ references lines, symbol.entity ≠ .exit →
    (∀ name ∈ imports, symbol.entity ≠ .method name) → symbol ∈ definitions lines
  strings : ∀ string ∈ llir.strings,
    ((definitions lines).filter fun symbol => symbol.entity = .string string).length = 1
  exits : ∀ symbol ∈ references lines, symbol.entity = .exit →
    symbol.name ∉ (definitions lines).map AssemblySymbol.name

def Llir.names (llir : Llir) : List String :=
  llir.fields.map LlirField.identifier ++ llir.methods.map LlirMethod.identifier

def Llir.Exits (llir : Llir) : Prop :=
  ∃ method ∈ llir.methods, ∃ block ∈ method.blocks, ∃ value, block.terminal = .shitYourself value

/-- No global field or method is named like a label or, if the program can exit, like `exit`. -/
structure Llir.CleanNames (llir : Llir) : Prop where
  strings : ∀ name ∈ llir.names, ∀ k, 1 ≤ k → k ≤ llir.strings.dedup.length → name ≠ stringLabel k
  blocks : ∀ name ∈ llir.names, ∀ method ∈ llir.methods, ∀ block ∈ method.blocks, name ≠ blockLabel block.id
  exit : llir.Exits → "exit" ∉ llir.names

@[simp] theorem definitions_nil : definitions [] = [] := rfl

@[simp] theorem definitions_append (lines lines' : List AssemblyLine) :
    definitions (lines ++ lines') = definitions lines ++ definitions lines' := List.filterMap_append

@[simp] theorem references_nil : references [] = [] := rfl

@[simp] theorem references_append (lines lines' : List AssemblyLine) :
    references (lines ++ lines') = references lines ++ references lines' := List.flatMap_append

@[simp] theorem definitions_label (symbol : AssemblySymbol) (lines : List AssemblyLine) :
    definitions (.label symbol :: lines) = symbol :: definitions lines := rfl

@[simp] theorem references_cons (line : AssemblyLine) (lines : List AssemblyLine) :
    references (line :: lines) = line.symbols ++ references lines := List.flatMap_cons

private theorem stringLabel_toList (id : Nat) : (stringLabel id).toList = "string_".toList ++ (toString id).toList :=
  String.toList_append

private theorem blockLabel_toList (id : Nat) : (blockLabel id).toList = "block_".toList ++ (toString id).toList :=
  String.toList_append

private theorem stringLabel_inj {i j : Nat} (h : stringLabel i = stringLabel j) : i = j := by
  have lists := congrArg String.toList h
  rw [stringLabel_toList, stringLabel_toList] at lists
  exact toString_inj (String.toList_inj.mp (List.append_cancel_left lists))

private theorem blockLabel_inj {i j : Nat} (h : blockLabel i = blockLabel j) : i = j := by
  have lists := congrArg String.toList h
  rw [blockLabel_toList, blockLabel_toList] at lists
  exact toString_inj (String.toList_inj.mp (List.append_cancel_left lists))

private theorem stringLabel_head (id : Nat) : (stringLabel id).toList.head? = some 's' := by
  rw [stringLabel_toList]
  rfl

private theorem blockLabel_head (id : Nat) : (blockLabel id).toList.head? = some 'b' := by
  rw [blockLabel_toList]
  rfl

private theorem stringLabel_ne_blockLabel (i j : Nat) : stringLabel i ≠ blockLabel j := by
  intro h
  have head := stringLabel_head i
  rw [h, blockLabel_head] at head
  exact absurd head (by decide)

private theorem stringLabel_ne_exit (i : Nat) : stringLabel i ≠ "exit" := by
  intro h
  have head := stringLabel_head i
  rw [h] at head
  exact absurd head (by decide)

private theorem blockLabel_ne_exit (i : Nat) : blockLabel i ≠ "exit" := by
  intro h
  have head := blockLabel_head i
  rw [h] at head
  exact absurd head (by decide)

def stringSymbol (entry : String × Nat) : AssemblySymbol := ⟨stringLabel entry.2, .string entry.1⟩

structure CodeGenerator.Numbers (g : CodeGenerator) (order : List String) : Prop where
  known : ∀ string ∈ order, g.stringId string ≠ 0 ∧ stringSymbol (string, g.stringId string) ∈ definitions g.lines
  unknown : ∀ string ∉ order, g.stringId string = 0
  counter : g.stringCounter = order.length + 1
  distinct : order.Nodup
  definitions : definitions g.lines = (order.zipIdx 1).map stringSymbol
  references : references g.lines = []

structure CodeGenerator.SameProgram (g g' : CodeGenerator) : Prop where
  pinholeOptimize : g'.pinholeOptimize = g.pinholeOptimize
  llir : g'.llir = g.llir
  failed : g'.failed = g.failed

/-- A string is numbered where it is met first. -/
private theorem generateGlobalString_numbers {g : CodeGenerator} {order : List String} (h : g.Numbers order)
    (string : String) : ∃ order', (generateGlobalString g string).Numbers order' ∧
      (∀ other, other ∈ order' ↔ other ∈ order ∨ other = string) ∧ g.SameProgram (generateGlobalString g string) := by
  by_cases mem : string ∈ order
  · have same : generateGlobalString g string = g := if_pos (h.known string mem).1
    rw [same]
    refine ⟨order, h, fun other => ⟨.inl, fun mem' => ?_⟩, rfl, rfl, rfl⟩
    rcases mem' with mem' | rfl
    · exact mem'
    · exact mem
  · have new : generateGlobalString g string =
        { g.print [.label (stringSymbol (string, g.stringCounter)), .string string, .align 16] with
          strings := (string, g.stringCounter) :: g.strings, stringCounter := g.stringCounter + 1 } :=
      if_neg (not_not.mpr (h.unknown string mem))
    have id (other : String) : (generateGlobalString g string).stringId other =
        if other = string then g.stringCounter else g.stringId other := by
      rw [new, CodeGenerator.stringId, List.lookup_cons]
      by_cases same : other = string
      · simp [same]
      · rw [beq_false_of_ne same, if_neg same]
        rfl
    have defined : definitions (generateGlobalString g string).lines =
        definitions g.lines ++ [stringSymbol (string, g.stringCounter)] := by
      rw [new]
      exact definitions_append g.lines _
    refine ⟨order ++ [string], ⟨?_, ?_, ?_, ?_, ?_, ?_⟩, by simp, by rw [new]; exact ⟨rfl, rfl, rfl⟩⟩
    · intro other mem'
      rw [id, defined]
      by_cases same : other = string
      · subst same
        rw [if_pos rfl]
        exact ⟨by simp [h.counter], by simp⟩
      · rw [if_neg same]
        have inside : other ∈ order := by simpa [same] using mem'
        exact ⟨(h.known other inside).1, List.mem_append_left _ (h.known other inside).2⟩
    · intro other absent
      simp only [List.mem_append, List.mem_singleton, not_or] at absent
      rw [id, if_neg absent.2]
      exact h.unknown other absent.1
    · rw [new]
      simp [h.counter]
    · refine List.nodup_append.mpr ⟨h.distinct, List.nodup_singleton _, fun other mem' text isText same => mem ?_⟩
      rw [← List.mem_singleton.mp isText, ← same]
      exact mem'
    · rw [defined, h.definitions, List.zipIdx_append, List.map_append, h.counter]
      simp [Nat.add_comm]
    · rw [new]
      have lines := references_append g.lines
        [.label (stringSymbol (string, g.stringCounter)), .string string, .align 16]
      rw [h.references] at lines
      exact lines

/-- The passes over the program find the strings of its calls. -/
theorem generateGlobalStrings_eq (g : CodeGenerator) :
    generateGlobalStrings g = g.llir.strings.foldl generateGlobalString g := by
  have call (arguments : List LlirOperand) (g : CodeGenerator) : findStringsInMethodCall g arguments =
      (arguments.flatMap LlirOperand.strings).foldl generateGlobalString g := by
    rw [List.foldl_flatMap]
    refine congrArg (fun step => arguments.foldl step g) ?_
    funext g argument
    cases argument <;> rfl
  have block (block : LlirBlock) (g : CodeGenerator) : findStringsInBlock g block =
      block.strings.foldl generateGlobalString g := by
    rw [LlirBlock.strings, List.foldl_flatMap]
    refine congrArg (fun step => block.assignments.foldl step g) ?_
    funext g assignment
    cases assignment with
    | methodCall method arguments destination => exact call arguments g
    | _ => rfl
  have method (method : LlirMethod) (g : CodeGenerator) : findStringsInMethod g method =
      method.strings.foldl generateGlobalString g := by
    rw [LlirMethod.strings, List.foldl_flatMap]
    refine congrArg (fun step => method.blocks.foldl step g) ?_
    funext g other
    exact block other g
  rw [Llir.strings, List.foldl_flatMap]
  refine congrArg (fun step => g.llir.methods.foldl step g) ?_
  funext g other
  exact method other g

/-- The strings are numbered in the order in which they are met first. -/
private theorem foldl_generateGlobalString_numbers (strings : List String) {g : CodeGenerator} {order : List String}
    (h : g.Numbers order) : ∃ order', (strings.foldl generateGlobalString g).Numbers order' ∧
      (∀ other, other ∈ order' ↔ other ∈ order ∨ other ∈ strings) ∧
      g.SameProgram (strings.foldl generateGlobalString g) := by
  induction strings generalizing g order with
  | nil => exact ⟨order, h, by simp, rfl, rfl, rfl⟩
  | cons string rest ih =>
    obtain ⟨order₁, h₁, mem₁, same₁⟩ := generateGlobalString_numbers h string
    obtain ⟨order₂, h₂, mem₂, same₂⟩ := ih h₁
    refine ⟨order₂, h₂, fun other => ?_, same₂.pinholeOptimize.trans same₁.pinholeOptimize,
      same₂.llir.trans same₁.llir, same₂.failed.trans same₁.failed⟩
    rw [mem₂, mem₁, List.mem_cons, or_assoc]

def Plain (allowed : AssemblySymbol → Prop) (lines : List AssemblyLine) : Prop :=
  (∀ symbol ∈ references lines, allowed symbol) ∧ definitions lines = []

theorem Plain.append {allowed : AssemblySymbol → Prop} {lines lines' : List AssemblyLine} (h : Plain allowed lines)
    (h' : Plain allowed lines') : Plain allowed (lines ++ lines') := by
  refine ⟨fun symbol mem => ?_, by rw [definitions_append, h.2, h'.2]; rfl⟩
  rw [references_append, List.mem_append] at mem
  rcases mem with mem | mem
  · exact h.1 symbol mem
  · exact h'.1 symbol mem

theorem Plain.flatMap {allowed : AssemblySymbol → Prop} {α : Type*} {items : List α} {lines : α → List AssemblyLine}
    (h : ∀ item ∈ items, Plain allowed (lines item)) : Plain allowed (items.flatMap lines) := by
  induction items with
  | nil => exact ⟨by simp, rfl⟩
  | cons item rest ih =>
    rw [List.flatMap_cons]
    exact (h item (by simp)).append (ih fun other mem => h other (List.mem_cons_of_mem _ mem))

/-- Lines that mention no symbol at all. -/
private theorem plain_of_none {allowed : AssemblySymbol → Prop} {lines : List AssemblyLine}
    (none : references lines = [])
    (defined : definitions lines = []) : Plain allowed lines :=
  ⟨fun symbol mem => absurd mem (by simp [none]), defined⟩

def exitSymbol : AssemblySymbol := ⟨"exit", .exit⟩

structure CodeGenerator.Allows (g : CodeGenerator) (allowed : AssemblySymbol → Prop) (names : List String)
    (known : List LlirField) (strings : List String) (ids : List Nat) : Prop where
  fields : ∀ field ∈ known, g.offsets field.identifier = 0 → allowed field.symbol
  strings : ∀ string ∈ strings, allowed (stringSymbol (string, g.stringId string))
  methods : ∀ name ∈ names, allowed ⟨name, .method name⟩
  blocks : ∀ id ∈ ids, allowed (blockSymbol id)

section
variable {g : CodeGenerator} {allowed : AssemblySymbol → Prop} {names : List String} {known : List LlirField}
  {strings : List String} {ids : List Nat} (h : g.Allows allowed names known strings ids)
include h

/-- Loading a register defines nothing. -/
private theorem loadToRegister_plain {operand : LlirOperand}
    (resolved : operand.Resolved known ∨ ∃ string ∈ strings, operand = .string string) (destination : Register) :
    Plain allowed (loadToRegister g operand destination) := by
  cases operand with
  | literal literal => exact plain_of_none rfl rfl
  | field field =>
    have mem : field ∈ known := by simpa [LlirOperand.Resolved] using resolved
    by_cases offset : g.offsets field.identifier = 0
    · have symbol := h.fields field mem offset
      refine ⟨?_, by simp [loadToRegister, offset, definitions]⟩
      simpa [loadToRegister, offset, AssemblyLine.symbols, AssemblyOperand.symbols] using symbol
    · exact plain_of_none (by simp [loadToRegister, offset, AssemblyLine.symbols, AssemblyOperand.symbols, stackSlot])
        (by simp [loadToRegister, offset, definitions])
  | string string =>
    have mem : string ∈ strings := by simpa [LlirOperand.Resolved] using resolved
    refine ⟨?_, rfl⟩
    simpa [loadToRegister, AssemblyLine.symbols, AssemblyOperand.symbols, stringSymbol] using h.strings string mem

private theorem loadArrayToRegister_plain {array : LlirField} (mem : array ∈ known) (destination : Register) :
    Plain allowed (loadArrayToRegister g array destination) := by
  by_cases offset : g.offsets array.identifier = 0
  · have symbol := h.fields array mem offset
    refine ⟨?_, by simp [loadArrayToRegister, offset, definitions]⟩
    simpa [loadArrayToRegister, offset, AssemblyLine.symbols, AssemblyOperand.symbols] using symbol
  · exact plain_of_none
      (by simp [loadArrayToRegister, offset, AssemblyLine.symbols, AssemblyOperand.symbols, stackSlot])
      (by simp [loadArrayToRegister, offset, definitions])

private theorem storeFromRegister_plain {destination : LlirField} (mem : destination ∈ known) (source : Register) :
    Plain allowed (storeFromRegister g destination source) := by
  by_cases offset : g.offsets destination.identifier = 0
  · have symbol := h.fields destination mem offset
    refine ⟨?_, by simp [storeFromRegister, offset, definitions]⟩
    simpa [storeFromRegister, offset, AssemblyLine.symbols, AssemblyOperand.symbols] using symbol
  · exact plain_of_none
      (by simp [storeFromRegister, offset, AssemblyLine.symbols, AssemblyOperand.symbols, stackSlot])
      (by simp [storeFromRegister, offset, definitions])

/-- Passing arguments defines nothing. -/
private theorem generateCallArguments_plain (arguments : List LlirOperand) (i : Nat)
    (resolved : ∀ argument ∈ arguments, argument.Resolved known ∨ ∃ string ∈ strings, argument = .string string) :
    Plain allowed (generateCallArguments g i arguments) := by
  induction arguments generalizing i with
  | nil => exact plain_of_none rfl rfl
  | cons argument rest ih =>
    have first := resolved argument (List.mem_cons_self ..)
    unfold generateCallArguments
    refine Plain.append ?_ (ih _ fun other mem => resolved other (List.mem_cons_of_mem _ mem))
    split
    · exact loadToRegister_plain h first _
    · exact (loadToRegister_plain h first _).append (plain_of_none rfl rfl)

/-- A call defines nothing and refers to its method. -/
private theorem generateCall_plain {method : String} (mem : method ∈ names) {arguments : List LlirOperand}
    (resolved : ∀ argument ∈ arguments, argument.Resolved known ∨ ∃ string ∈ strings, argument = .string string)
    {destination : LlirField} (stored : destination ∈ known) :
    Plain allowed (generateCall g method arguments destination) := by
  have adjust (mnemonic : Mnemonic) (count size : Int) : Plain allowed (if count > 0 then
      [AssemblyLine.instruction mnemonic [.immediate (BitVec.ofInt 64 size), .register .rsp]] else []) := by
    split
    · exact plain_of_none rfl rfl
    · exact plain_of_none rfl rfl
  have call : Plain allowed [.instruction .movq [.immediate 0, .register .rax], .call ⟨method, .method method⟩] := by
    refine ⟨?_, rfl⟩
    simpa [AssemblyLine.symbols, AssemblyOperand.symbols] using h.methods method mem
  exact ((((adjust _ _ _).append (generateCallArguments_plain h arguments 0 resolved)).append call).append
    (adjust _ _ _)).append (storeFromRegister_plain h stored _)

/-- An assignment defines nothing. -/
private theorem generateAssignmentLines_plain {assignment : LlirAssignment} (resolved : assignment.Resolved names known)
    (passed : assignment.strings ⊆ strings) : Plain allowed (generateAssignmentLines g assignment) := by
  cases assignment with
  | unary type source destination =>
    have compute : Plain allowed (unaryInstructions type).1 := by cases type <;> exact plain_of_none rfl rfl
    exact ((loadToRegister_plain h (.inl resolved.1) _).append compute).append (storeFromRegister_plain h resolved.2 _)
  | binary type left right destination =>
    have compute : Plain allowed (binaryInstructions type).1 := by cases type <;> exact plain_of_none rfl rfl
    exact (((loadToRegister_plain h (.inl resolved.1) _).append
      (loadToRegister_plain h (.inl resolved.2.1) _)).append compute).append
        (storeFromRegister_plain h resolved.2.2 _)
  | arrayUpdate index value destination =>
    exact ((((loadArrayToRegister_plain h resolved.2.2 _).append (loadToRegister_plain h (.inl resolved.1) _)).append
      (plain_of_none rfl rfl)).append (loadToRegister_plain h (.inl resolved.2.1) _)).append (plain_of_none rfl rfl)
  | arrayAccess index array destination guarded =>
    exact ((((loadArrayToRegister_plain h resolved.2.1 _).append (loadToRegister_plain h (.inl resolved.1) _)).append
      (plain_of_none rfl rfl)).append (plain_of_none rfl rfl)).append (storeFromRegister_plain h resolved.2.2 _)
  | methodCall method arguments destination =>
    refine generateCall_plain h resolved.1 (fun argument mem => ?_) resolved.2.2
    rcases resolved.2.1 argument mem with known | ⟨string, rfl⟩
    · exact .inl known
    · exact .inr ⟨string, passed (List.mem_flatMap.mpr ⟨_, mem, by simp [LlirOperand.strings]⟩), rfl⟩

/-- A terminal defines nothing and refers to its targets. -/
private theorem generateTerminal_plain {terminal : LlirTerminal} (resolved : terminal.Resolved known)
    (targets : ∀ target ∈ terminal.successors, target ∈ ids)
    (exits : ∀ value, terminal = .shitYourself value → allowed exitSymbol) (next : Option Nat) :
    Plain allowed (generateTerminal g terminal next) := by
  cases terminal with
  | unknown => exact plain_of_none rfl rfl
  | branch branch =>
    have jump : Plain allowed [.instruction .cmpq [.register .r10, .register .r11],
        .jump (branch.type.mnemonic branch.unsignedComparison) (blockSymbol branch.falseBlock)] := by
      refine ⟨?_, rfl⟩
      simpa [AssemblyLine.symbols, AssemblyOperand.symbols] using
        h.blocks branch.falseBlock (targets _ (by simp [LlirTerminal.successors]))
    exact ((loadToRegister_plain h (.inl resolved.1) _).append (loadToRegister_plain h (.inl resolved.2) _)).append jump
  | jump block =>
    unfold generateTerminal generateJump
    dsimp only
    split
    · exact plain_of_none rfl rfl
    · refine ⟨?_, rfl⟩
      simpa [AssemblyLine.symbols] using h.blocks block (targets _ (by simp [LlirTerminal.successors]))
  | llirReturn source => exact (loadToRegister_plain h (.inl resolved) _).append (plain_of_none rfl rfl)
  | shitYourself value =>
    refine ⟨?_, rfl⟩
    simpa [generateTerminal, generateShitYourself, AssemblyLine.symbols, AssemblyOperand.symbols, exitSymbol] using exits value rfl

/-- The blocks of a method define their labels. -/
private theorem generateBlockLines_symbols (blocks : List LlirBlock)
    (assignments : ∀ block ∈ blocks, ∀ assignment ∈ block.assignments, assignment.Resolved names known)
    (terminals : ∀ block ∈ blocks, block.terminal.Resolved known)
    (targets : ∀ block ∈ blocks, ∀ target ∈ block.terminal.successors, target ∈ ids)
    (exits : ∀ block ∈ blocks, ∀ value, block.terminal = .shitYourself value → allowed exitSymbol)
    (passed : ∀ block ∈ blocks, block.strings ⊆ strings) :
    (∀ symbol ∈ references (generateBlockLines g blocks), allowed symbol) ∧
      definitions (generateBlockLines g blocks) = blocks.map fun block => blockSymbol block.id := by
  induction blocks with
  | nil => exact ⟨by simp [generateBlockLines], rfl⟩
  | cons block rest ih =>
    obtain ⟨referred, defined⟩ := ih (fun other mem => assignments other (List.mem_cons_of_mem _ mem))
      (fun other mem => terminals other (List.mem_cons_of_mem _ mem))
      (fun other mem => targets other (List.mem_cons_of_mem _ mem))
      (fun other mem => exits other (List.mem_cons_of_mem _ mem))
      fun other mem => passed other (List.mem_cons_of_mem _ mem)
    have code : Plain allowed (block.assignments.flatMap (generateAssignmentLines g)) :=
      .flatMap fun assignment mem => generateAssignmentLines_plain h
        (assignments block (List.mem_cons_self ..) assignment mem)
        fun string mem' => passed block (List.mem_cons_self ..) (List.mem_flatMap.mpr ⟨assignment, mem, mem'⟩)
    have terminal := generateTerminal_plain h (terminals block (List.mem_cons_self ..))
      (targets block (List.mem_cons_self ..)) (exits block (List.mem_cons_self ..)) (rest.head?.map LlirBlock.id)
    have whole := code.append terminal
    unfold generateBlockLines
    refine ⟨fun symbol mem => ?_, ?_⟩
    · rw [references_append, List.cons_append, references_cons, List.mem_append, List.mem_append] at mem
      rcases mem with (mem | mem) | mem
      · exact absurd mem (by simp [AssemblyLine.symbols])
      · exact whole.1 symbol mem
      · exact referred symbol mem
    · rw [definitions_append, List.cons_append, definitions_label, whole.2, defined]
      rfl

end

/-- A block that exits calls `exit`. -/
private theorem exitSymbol_mem_references (g : CodeGenerator) {blocks : List LlirBlock} {block : LlirBlock}
    (mem : block ∈ blocks) {value : Word} (terminal : block.terminal = .shitYourself value) :
    exitSymbol ∈ references (generateBlockLines g blocks) := by
  induction blocks with
  | nil => simp at mem
  | cons first rest ih =>
    unfold generateBlockLines
    rw [references_append, List.mem_append]
    rcases List.mem_cons.mp mem with rfl | mem
    · refine .inl ?_
      rw [references_append, List.mem_append]
      refine .inr ?_
      rw [terminal]
      simp [generateTerminal, generateShitYourself, AssemblyLine.symbols, AssemblyOperand.symbols, exitSymbol]
    · exact .inr (ih mem)

/-- Declared fields have an offset. -/
private theorem offset_ne_zero {method : LlirMethod} (positive : ∀ field ∈ method.fields, 0 < field.valueCount)
    (offsets : Offsets) {field : LlirField} (mem : field ∈ method.fields) :
    (generateStackAllocation offsets method).2 field.identifier ≠ 0 := by
  obtain ⟨front, last, rest, split, name, absent, -⟩ := exists_last mem
  rw [split] at positive
  have offset := foldl_allocateField_last positive absent offsets
  have words : 0 < frameWords (front ++ [last]) := by
    have before := frameWords_nonneg fun other mem' => positive other (List.mem_append_left _ mem')
    have own := positive last (by simp)
    rw [frameWords_append, frameWords_cons, frameWords_nil]
    omega
  rw [generateStackAllocation_eq, split, ← name]
  dsimp only
  intro zero
  rw [zero] at offset
  push_cast at offset
  omega

def LlirMethod.symbols (method : LlirMethod) : List AssemblySymbol :=
  ⟨method.identifier, .method method.identifier⟩ :: method.blocks.map fun block => blockSymbol block.id

private theorem generateArgumentLines_plain {allowed : AssemblySymbol → Prop} (g : CodeGenerator)
    (arguments : List LlirField)
    (i : Nat) : Plain allowed (generateArgumentLines g i arguments) := by
  induction arguments generalizing i with
  | nil => exact plain_of_none rfl rfl
  | cons field rest ih =>
    unfold generateArgumentLines
    refine Plain.append ?_ (ih _)
    split
    · exact plain_of_none rfl rfl
    · exact plain_of_none rfl rfl

private theorem generateInitialization_plain {allowed : AssemblySymbol → Prop} (llir : Llir)
    (fields : ∀ field ∈ llir.fields, allowed field.symbol) (method : LlirMethod) :
    Plain allowed (generateInitialization llir method) := by
  unfold generateInitialization
  split
  · refine Plain.flatMap fun field mem => Plain.flatMap fun i _ => ?_
    split
    · exact plain_of_none rfl rfl
    · refine ⟨?_, rfl⟩
      simpa [AssemblyLine.symbols, AssemblyOperand.symbols] using fields field mem
  · exact plain_of_none rfl rfl

structure CodeGenerator.AllowsMethod (g : CodeGenerator) (allowed : AssemblySymbol → Prop) (names : List String)
    (writes : List LlirAssignment) (method : LlirMethod) : Prop where
  wellFormed : method.WellFormed
  resolved : method.Resolved names g.llir.fields writes
  fields : ∀ field ∈ g.llir.fields, allowed field.symbol
  strings : ∀ string ∈ method.strings, allowed (stringSymbol (string, g.stringId string))
  methods : ∀ name ∈ names, allowed ⟨name, .method name⟩
  blocks : ∀ block ∈ method.blocks, allowed (blockSymbol block.id)
  exits : ∀ block ∈ method.blocks, ∀ value, block.terminal = .shitYourself value → allowed exitSymbol

/-- A method defines itself and its blocks. -/
private theorem generateMethodLines_symbols {g : CodeGenerator} {allowed : AssemblySymbol → Prop} {names : List String}
    {writes : List LlirAssignment} {method : LlirMethod} (h : g.AllowsMethod allowed names writes method) :
    ∃ lines, (generateMethodLines g method).lines = g.lines ++ lines ∧
      (∀ symbol ∈ references lines, allowed symbol) ∧ definitions lines = method.symbols := by
  refine ⟨_, rfl, ?_⟩
  dsimp only
  generalize hg : ({ g with offsets := (generateStackAllocation g.offsets method).2, failed := _ } :
    CodeGenerator) = g'
  have offsets : g'.offsets = (generateStackAllocation g.offsets method).2 := by rw [← hg]
  have id (string : String) : g'.stringId string = g.stringId string := by rw [← hg]; rfl
  have allows : g'.Allows allowed names (g.llir.fields ++ method.fields) method.strings
      (method.blocks.map LlirBlock.id) := by
    refine ⟨fun field mem zero => ?_, fun string mem => id string ▸ h.strings string mem, h.methods, fun id mem => ?_⟩
    · rcases List.mem_append.mp mem with mem | mem
      · exact h.fields field mem
      · exact absurd (offsets ▸ zero) (offset_ne_zero h.wellFormed.positive g.offsets mem)
    · obtain ⟨block, inside, rfl⟩ := List.mem_map.mp mem
      exact h.blocks block inside
  obtain ⟨referred, defined⟩ := generateBlockLines_symbols allows method.blocks
    (fun block mem assignment mem' => (h.resolved.assignments block mem assignment mem').1) h.resolved.terminals
    h.wellFormed.targets h.exits fun block mem string mem' => List.mem_flatMap.mpr ⟨block, mem, mem'⟩
  have header : Plain allowed [.instruction .pushq [.register .rbp],
      .instruction .movq [.register .rsp, .register .rbp], .instruction .subq
        [.immediate (BitVec.ofNat 64 (generateStackAllocation g.offsets method).1), .register .rsp]] :=
    plain_of_none rfl rfl
  have start := (header.append (generateArgumentLines_plain g' method.arguments 0)).append
    (generateInitialization_plain g.llir h.fields method)
  constructor
  · intro symbol mem
    rw [references_append, List.mem_append] at mem
    rcases mem with mem | mem
    · refine start.1 symbol ?_
      simpa [AssemblyLine.symbols, AssemblyOperand.symbols] using mem
    · exact referred symbol mem
  · rw [definitions_append, defined]
    exact congrArg (fun rest => _ :: (rest ++ _)) start.2

/-- The text section defines the labels of the methods. -/
private theorem foldl_generateMethodLines_symbols {allowed : AssemblySymbol → Prop} {names : List String}
    {writes : List LlirAssignment} (methods : List LlirMethod) {g : CodeGenerator}
    (h : ∀ method ∈ methods, g.AllowsMethod allowed names writes method) :
    ∃ lines, (methods.foldl generateMethodLines g).lines = g.lines ++ lines ∧
      (∀ symbol ∈ references lines, allowed symbol) ∧ definitions lines = methods.flatMap LlirMethod.symbols := by
  induction methods generalizing g with
  | nil => exact ⟨[], (List.append_nil _).symm, by simp, rfl⟩
  | cons method rest ih =>
    obtain ⟨first, printed, referred, defined⟩ := generateMethodLines_symbols (h method (List.mem_cons_self ..))
    have later : ∀ other ∈ rest, (generateMethodLines g method).AllowsMethod allowed names writes other := by
      intro other mem
      have allows := h other (List.mem_cons_of_mem _ mem)
      exact ⟨allows.wellFormed, allows.resolved, allows.fields, allows.strings, allows.methods, allows.blocks,
        allows.exits⟩
    obtain ⟨others, printed', referred', defined'⟩ := ih later
    refine ⟨first ++ others, ?_, fun symbol mem => ?_, ?_⟩
    · rw [List.foldl_cons, printed', printed, List.append_assoc]
    · rw [references_append, List.mem_append] at mem
      rcases mem with mem | mem
      · exact referred symbol mem
      · exact referred' symbol mem
    · rw [definitions_append, defined, defined', List.flatMap_cons]

/-- Every exit of the program is a call in the text section. -/
private theorem foldl_generateMethodLines_exits (methods : List LlirMethod) (g : CodeGenerator) :
    references g.lines ⊆ references (methods.foldl generateMethodLines g).lines ∧
      ∀ method ∈ methods, ∀ block ∈ method.blocks, ∀ value, block.terminal = .shitYourself value →
        exitSymbol ∈ references (methods.foldl generateMethodLines g).lines := by
  induction methods generalizing g with
  | nil => exact ⟨fun _ => id, by simp⟩
  | cons method rest ih =>
    obtain ⟨subset, exits⟩ := ih (generateMethodLines g method)
    refine ⟨fun symbol mem => subset ?_, List.forall_mem_cons.mpr ⟨fun block mem value terminal => subset ?_, exits⟩⟩
    · change symbol ∈ references (g.lines ++ _)
      rw [references_append]
      exact List.mem_append_left _ mem
    · change exitSymbol ∈ references (g.lines ++ (_ ++ generateBlockLines _ method.blocks))
      rw [references_append, references_append]
      exact List.mem_append_right _ (List.mem_append_right _ (exitSymbol_mem_references _ mem terminal))

private theorem generateGlobalFields_symbols (fields : List LlirField) :
    references (generateGlobalFields fields) = [] ∧
      definitions (generateGlobalFields fields) = fields.map LlirField.symbol := by
  induction fields with
  | nil => exact ⟨rfl, rfl⟩
  | cons field rest ih =>
    rw [generateGlobalFields, List.flatMap_cons, references_append, definitions_append]
    exact ⟨ih.1, congrArg (field.symbol :: ·) ih.2⟩

/-- The data section defines the labels of the strings and of the global fields. -/
theorem generateDataSection_symbols (pinholeOptimize : Bool) (llir : Llir) :
    ∃ order : List String, order.Nodup ∧ (∀ string, string ∈ order ↔ string ∈ llir.strings) ∧
      let g := generateDataSection (codeGeneratorNew pinholeOptimize llir)
      definitions g.lines = (order.zipIdx 1).map stringSymbol ++ llir.fields.map LlirField.symbol ∧
        references g.lines = [] ∧ g.llir = llir ∧
        ∀ string ∈ llir.strings, stringSymbol (string, g.stringId string) ∈ definitions g.lines := by
  have start : ((codeGeneratorNew pinholeOptimize llir).print [.data]).Numbers [] :=
    ⟨by simp, fun _ _ => rfl, rfl, .nil, rfl, rfl⟩
  obtain ⟨order, numbers, mem, same⟩ := foldl_generateGlobalString_numbers llir.strings start
  have strings := generateGlobalStrings_eq ((codeGeneratorNew pinholeOptimize llir).print [.data])
  have program : ((codeGeneratorNew pinholeOptimize llir).print [.data]).llir = llir := rfl
  rw [program] at strings
  rw [← strings] at numbers same
  obtain ⟨referred, defined⟩ := generateGlobalFields_symbols llir.fields
  have lines : (generateDataSection (codeGeneratorNew pinholeOptimize llir)).lines =
      (generateGlobalStrings ((codeGeneratorNew pinholeOptimize llir).print [.data])).lines ++
        generateGlobalFields llir.fields := rfl
  refine ⟨order, numbers.distinct, by simpa using mem, ?_, ?_, same.llir, fun string inside => ?_⟩
  · rw [lines, definitions_append, numbers.definitions, defined]
  · rw [lines, references_append, numbers.references, referred]
    rfl
  · rw [lines, definitions_append]
    exact List.mem_append_left _ (numbers.known string ((mem string).mpr (.inr inside))).2

def Llir.symbols (llir : Llir) (order : List String) : List AssemblySymbol :=
  (order.zipIdx 1).map stringSymbol ++ llir.fields.map LlirField.symbol ++ llir.methods.flatMap LlirMethod.symbols

/-- The labels of the emitted assembly, and what is referred to: labels, imported methods and `exit`. -/
theorem codeGeneratorGenerate_symbols {program : IrProgram} (ready : program.Ready) {llir : Llir}
    (generated : llirGeneratorGenerateLlir program = some llir) {pinholeOptimize : Bool} {lines : List AssemblyLine}
    (emitted : codeGeneratorGenerate pinholeOptimize llir = some lines) :
    ∃ order : List String, order.Nodup ∧ (∀ string, string ∈ order ↔ string ∈ llir.strings) ∧
      definitions lines = llir.symbols order ∧
      (∀ symbol ∈ references lines, symbol ∈ llir.symbols order ∨
        (∃ name ∈ program.imports.map IrMethod.identifier, symbol.entity = .method name) ∨
        symbol = exitSymbol ∧ llir.Exits) ∧
      (llir.Exits → exitSymbol ∈ references lines) := by
  obtain ⟨rfl, alive⟩ := llirGeneratorGenerateLlir_eq generated
  have resolved := ready.resolved alive
  have wellFormed := ready.wellFormed
  have names : (generateLlir program).1.methods.map LlirMethod.identifier = program.methods.map IrMethod.identifier :=
    generateMethods_identifiers _ _
  generalize (generateLlir program).1 = llir at *
  obtain ⟨order, distinct, mem, defined, referred, same, known⟩ := generateDataSection_symbols pinholeOptimize llir
  generalize hg : generateDataSection (codeGeneratorNew pinholeOptimize llir) = g at *
  have text : lines = (g.llir.methods.foldl generateMethodLines (g.print [.text])).lines := by
    unfold codeGeneratorGenerate at emitted
    rw [hg] at emitted
    dsimp only at emitted
    split at emitted
    · cases emitted
    · exact (Option.some.inj emitted).symm
  let allowed (symbol : AssemblySymbol) : Prop := symbol ∈ llir.symbols order ∨
    (∃ name ∈ program.imports.map IrMethod.identifier, symbol.entity = .method name) ∨
    symbol = exitSymbol ∧ llir.Exits
  have allows : ∀ method ∈ llir.methods,
      (g.print [.text]).AllowsMethod allowed program.callable (generateLlir program).2.writes method := by
    intro method inside
    have inSymbols {symbol : AssemblySymbol} (mem : symbol ∈ method.symbols) : symbol ∈ llir.symbols order :=
      List.mem_append_right _ (List.mem_flatMap.mpr ⟨method, inside, mem⟩)
    refine ⟨wellFormed.methods method inside, ?_, fun field declared => ?_, fun string passed => ?_,
      fun name callable => ?_, fun block laid => ?_, fun block laid value terminal => ?_⟩
    · have program : (g.print [.text]).llir = llir := same
      rw [program]
      exact resolved method inside
    · rw [show (g.print [.text]).llir = llir from same] at declared
      exact .inl (List.mem_append_left _ (List.mem_append_right _ (List.mem_map_of_mem declared)))
    · refine .inl (List.mem_append_left _ ?_)
      rw [← defined]
      exact known string (List.mem_flatMap.mpr ⟨method, inside, passed⟩)
    · rcases List.mem_append.mp callable with imported | declared
      · exact .inr (.inl ⟨name, imported, rfl⟩)
      · rw [← names] at declared
        obtain ⟨other, otherMem, rfl⟩ := List.mem_map.mp declared
        exact .inl (List.mem_append_right _ (List.mem_flatMap.mpr ⟨other, otherMem, List.mem_cons_self ..⟩))
    · exact .inl (inSymbols (List.mem_cons_of_mem _ (List.mem_map.mpr ⟨block, laid, rfl⟩)))
    · exact .inr (.inr ⟨rfl, method, inside, block, laid, value, terminal⟩)
  obtain ⟨code, printed, referred', defined'⟩ := foldl_generateMethodLines_symbols llir.methods allows
  obtain ⟨-, exits⟩ := foldl_generateMethodLines_exits llir.methods (g.print [.text])
  rw [same] at text
  refine ⟨order, distinct, mem, ?_, ?_, ?_⟩
  · rw [text, printed, definitions_append, defined']
    have header : definitions (g.print [.text]).lines = definitions g.lines := by
      rw [CodeGenerator.print, definitions_append]
      exact List.append_nil _
    rw [header, defined]
    rfl
  · intro symbol inside
    rw [text, printed, references_append, List.mem_append] at inside
    rcases inside with inside | inside
    · rw [CodeGenerator.print, references_append, referred] at inside
      exact absurd inside (by simp [AssemblyLine.symbols])
    · exact referred' symbol inside
  · rintro ⟨method, inside, block, laid, value, terminal⟩
    rw [text]
    exact exits method inside block laid value terminal

def Llir.labels (llir : Llir) (order : List String) : List String :=
  (List.range' 1 order.length).map stringLabel ++
    (llir.methods.flatMap fun method => method.blocks.map LlirBlock.id).map blockLabel

/-- The defined names are the labels and the names of the program. -/
private theorem symbols_names_perm (llir : Llir) (order : List String) :
    ((llir.symbols order).map AssemblySymbol.name).Perm (llir.labels order ++ llir.names) := by
  have strings : ((order.zipIdx 1).map stringSymbol).map AssemblySymbol.name =
      (List.range' 1 order.length).map stringLabel := by
    rw [← List.zipIdx_map_snd, List.map_map, List.map_map]
    rfl
  have fields : (llir.fields.map LlirField.symbol).map AssemblySymbol.name = llir.fields.map LlirField.identifier := by
    rw [List.map_map]
    rfl
  have methods (methods : List LlirMethod) :
      ((methods.flatMap LlirMethod.symbols).map AssemblySymbol.name).Perm
        ((methods.flatMap fun method => method.blocks.map LlirBlock.id).map blockLabel ++
          methods.map LlirMethod.identifier) := by
    induction methods with
    | nil => exact .refl _
    | cons method rest ih =>
      have own : method.symbols.map AssemblySymbol.name =
          method.identifier :: (method.blocks.map LlirBlock.id).map blockLabel := by
        simp [LlirMethod.symbols, blockSymbol, Function.comp_def]
      rw [List.flatMap_cons, List.map_append, own, List.flatMap_cons, List.map_append, List.map_cons,
        List.append_assoc, List.cons_append]
      refine .trans (.cons _ (ih.append_left _)) ?_
      rw [← List.append_assoc, ← List.append_assoc]
      exact List.perm_middle.symm
  rw [Llir.symbols, List.map_append, List.map_append, strings, fields, Llir.labels, Llir.names, List.append_assoc,
    List.append_assoc]
  refine List.Perm.append_left _ (.trans ((methods llir.methods).append_left _) ?_)
  rw [← List.append_assoc, ← List.append_assoc]
  exact List.perm_append_comm.append_right _

/-- The numbered labels are distinct. -/
private theorem labels_nodup {llir : Llir} (order : List String)
    (distinct : (llir.methods.flatMap fun method => method.blocks.map LlirBlock.id).Nodup) :
    (llir.labels order).Nodup := by
  refine List.nodup_append.mpr ⟨?_, ?_, ?_⟩
  · exact List.Nodup.map (fun i j => stringLabel_inj) List.nodup_range'
  · exact distinct.map fun i j => blockLabel_inj
  · intro label isString other isBlock
    obtain ⟨i, -, rfl⟩ := List.mem_map.mp isString
    obtain ⟨j, -, rfl⟩ := List.mem_map.mp isBlock
    exact stringLabel_ne_blockLabel i j

/-- A label stands for a string, or else for a field, a method or a block. -/
theorem mem_symbols {llir : Llir} {order : List String} {symbol : AssemblySymbol} (mem : symbol ∈ llir.symbols order) :
    symbol ∈ (order.zipIdx 1).map stringSymbol ∨ (∃ field, symbol.entity = .field field) ∨
      (∃ identifier, symbol.entity = .method identifier) ∨ ∃ id, symbol.entity = .block id := by
  rcases List.mem_append.mp mem with mem | mem
  · rcases List.mem_append.mp mem with mem | mem
    · exact .inl mem
    · obtain ⟨field, -, rfl⟩ := List.mem_map.mp mem
      exact .inr (.inl ⟨field, rfl⟩)
  · obtain ⟨method, -, mem⟩ := List.mem_flatMap.mp mem
    rcases List.mem_cons.mp mem with rfl | mem
    · exact .inr (.inr (.inl ⟨_, rfl⟩))
    · obtain ⟨block, -, rfl⟩ := List.mem_map.mp mem
      exact .inr (.inr (.inr ⟨_, rfl⟩))

/-- A string in the order has one label. -/
private theorem filter_symbols_string {llir : Llir} {order : List String} (distinct : order.Nodup) {string : String}
    (mem : string ∈ order) :
    ((llir.symbols order).filter fun symbol => symbol.entity = .string string).length = 1 := by
  have fields : (llir.fields.map LlirField.symbol).filter (fun symbol => symbol.entity = .string string) = [] := by
    rw [List.filter_eq_nil_iff]
    intro symbol inside
    obtain ⟨field, -, rfl⟩ := List.mem_map.mp inside
    simp [LlirField.symbol]
  have methods : (llir.methods.flatMap LlirMethod.symbols).filter
      (fun symbol => symbol.entity = .string string) = [] := by
    rw [List.filter_eq_nil_iff]
    intro symbol inside
    obtain ⟨method, -, inside⟩ := List.mem_flatMap.mp inside
    rcases List.mem_cons.mp inside with rfl | inside
    · simp
    · obtain ⟨block, -, rfl⟩ := List.mem_map.mp inside
      simp [blockSymbol]
  have strings : ((order.zipIdx 1).map stringSymbol).countP (fun symbol => symbol.entity = .string string) =
      ((order.zipIdx 1).map Prod.fst).countP fun other => other == string := by
    rw [List.countP_map, List.countP_map]
    refine List.countP_congr fun entry _ => ?_
    simp [stringSymbol]
  rw [Llir.symbols, List.filter_append, List.filter_append, fields, methods, List.append_nil, List.append_nil,
    ← List.countP_eq_length_filter, strings, List.zipIdx_map_fst]
  exact List.count_eq_one_of_mem distinct mem

/-- The labels are those of the strings, which are counted from 1, and those of the blocks. -/
private theorem mem_labels {llir : Llir} {order : List String} {name : String} : name ∈ llir.labels order ↔
    (∃ k, (1 ≤ k ∧ k ≤ order.length) ∧ stringLabel k = name) ∨
      ∃ method ∈ llir.methods, ∃ block ∈ method.blocks, blockLabel block.id = name := by
  rw [Llir.labels, List.mem_append]
  simp only [List.mem_map, List.mem_range'_1, List.mem_flatMap]
  apply or_congr
  · refine exists_congr fun k => and_congr_left fun _ => ?_
    omega
  · constructor
    · rintro ⟨_, ⟨method, inside, block, laid, rfl⟩, same⟩
      exact ⟨method, inside, block, laid, same⟩
    · rintro ⟨method, inside, block, laid, same⟩
      exact ⟨_, ⟨method, inside, block, laid, rfl⟩, same⟩

/-- The symbols of the emitted assembly are hygienic exactly when the program's names are clean. -/
theorem codeGeneratorGenerate_hygienic_iff {program analyzed : IrProgram} (source : program.FromSource)
    (accepted : Accepts program analyzed) {llir : Llir} (generated : llirGeneratorGenerateLlir analyzed = some llir)
    {pinholeOptimize : Bool} {lines : List AssemblyLine}
    (emitted : codeGeneratorGenerate pinholeOptimize llir = some lines) :
    Hygienic (analyzed.imports.map IrMethod.identifier) llir lines ↔ llir.CleanNames := by
  have ready := accepts_ready source accepted
  obtain ⟨order, distinct, mem, defined, referred, exits⟩ := codeGeneratorGenerate_symbols ready generated emitted
  have length : order.length = llir.strings.dedup.length :=
    ((List.perm_ext_iff_of_nodup distinct (List.nodup_dedup _)).mpr fun string => by
      rw [mem, List.mem_dedup]).length_eq
  have perm := symbols_names_perm llir order
  have labels : (llir.labels order).Nodup := by
    refine labels_nodup order ?_
    obtain ⟨rfl, -⟩ := llirGeneratorGenerateLlir_eq generated
    exact ready.wellFormed.made.nodup_iff.mpr List.nodup_range
  have names : llir.names.Nodup := by
    have declared := ready.typed.distinct
    obtain ⟨rfl, -⟩ := llirGeneratorGenerateLlir_eq generated
    rw [IrProgram.names, List.append_assoc] at declared
    have fields : (generateLlir analyzed).1.fields.map LlirField.identifier = analyzed.fields.map IrField.identifier := by
      have same : (generateLlir analyzed).1.fields = analyzed.fields.map (IrField.llirField 0) :=
        (ready.globals False).1
      rw [same, List.map_map]
      rfl
    have methods : (generateLlir analyzed).1.methods.map LlirMethod.identifier =
        analyzed.methods.map IrMethod.identifier := generateMethods_identifiers _ _
    rw [Llir.names, fields, methods]
    exact declared.of_append_right
  have inLabels (name : String) : name ∈ llir.labels order ↔
      (∃ k, (1 ≤ k ∧ k ≤ llir.strings.dedup.length) ∧ stringLabel k = name) ∨
        ∃ method ∈ llir.methods, ∃ block ∈ method.blocks, blockLabel block.id = name := by
    rw [mem_labels, length]
  have nameDefined : "exit" ∈ (llir.symbols order).map AssemblySymbol.name ↔ "exit" ∈ llir.names := by
    rw [perm.mem_iff, List.mem_append]
    refine or_iff_right fun isLabel => ?_
    rcases (inLabels _).mp isLabel with ⟨k, -, same⟩ | ⟨_, _, block, -, same⟩
    · exact stringLabel_ne_exit k same
    · exact blockLabel_ne_exit block.id same
  constructor
  · intro hygienic
    have apart := hygienic.distinct
    rw [defined, perm.nodup_iff, List.nodup_append] at apart
    refine ⟨fun name inside k low high same => ?_, fun name inside method declared block laid same => ?_,
      fun leaves inside => ?_⟩
    · exact apart.2.2 name ((inLabels name).mpr (.inl ⟨k, ⟨low, high⟩, same.symm⟩)) name inside rfl
    · exact apart.2.2 name ((inLabels name).mpr (.inr ⟨method, declared, block, laid, same.symm⟩)) name inside rfl
    · refine hygienic.exits exitSymbol (exits leaves) rfl ?_
      rw [defined]
      exact nameDefined.mpr inside
  · intro clean
    refine ⟨?_, fun symbol inside notExit notImported => ?_, fun string inside => ?_, fun symbol inside isExit => ?_⟩
    · rw [defined, perm.nodup_iff]
      refine List.nodup_append.mpr ⟨labels, names, fun label isLabel name inside same => ?_⟩
      subst same
      rcases (inLabels label).mp isLabel with ⟨k, range, same⟩ | ⟨method, declared, block, laid, same⟩
      · exact clean.strings label inside k range.1 range.2 same.symm
      · exact clean.blocks label inside method declared block laid same.symm
    · rw [defined]
      rcases referred symbol inside with symbols | ⟨name, imported, same⟩ | ⟨rfl, -⟩
      · exact symbols
      · exact absurd same (notImported name imported)
      · exact absurd rfl notExit
    · rw [defined]
      exact filter_symbols_string distinct ((mem string).mpr inside)
    · rw [defined]
      rcases referred symbol inside with symbols | ⟨name, imported, same⟩ | ⟨rfl, leaves⟩
      · rcases mem_symbols symbols with isString | ⟨_, same⟩ | ⟨_, same⟩ | ⟨_, same⟩
        · obtain ⟨entry, -, rfl⟩ := List.mem_map.mp isString
          exact absurd isExit (by simp [stringSymbol])
        · exact absurd (isExit.symm.trans same) (by simp)
        · exact absurd (isExit.symm.trans same) (by simp)
        · exact absurd (isExit.symm.trans same) (by simp)
      · exact absurd (isExit.symm.trans same) (by simp)
      · exact fun name => clean.exit leaves (nameDefined.mp name)

/-- `int a[1]; void exit() { } void main() { a[1] = 0; }` -/
def ownExit : IrProgram where
  imports := []
  fields := [{
    node := 0, type := .intArray, constant := false, identifier := "a", arrayLength := 1
    lengthToken := some ⟨false, ['1']⟩, initializer := none }]
  methods := [
    { imported := false, returnType := .void, identifier := "exit", arguments := [], block := .mk [] .nil },
    { imported := false, returnType := .void, identifier := "main", arguments := []
      block := .mk [] (.cons (.assignment ⟨.element 1 "a" (.literal
        { negate := false, type := .int, value := 1, token := some ⟨false, ['1']⟩ }), .set, some (.literal
        { negate := false, type := .int, value := 0, token := some ⟨false, ['0']⟩ })⟩) .nil) }]

def ownExitLlir : Llir := (generateLlir (semanticsAnalyze ownExit).2).1

def ownExitLines : List AssemblyLine := (codeGeneratorGenerate false ownExitLlir).getD []

private theorem ownExit_generated : ownExit.FromSource ∧ Accepts ownExit (semanticsAnalyze ownExit).2 ∧
    llirGeneratorGenerateLlir (semanticsAnalyze ownExit).2 = some ownExitLlir ∧
    codeGeneratorGenerate false ownExitLlir = some ownExitLines :=
  ⟨by decide +kernel, Prod.ext (by decide +kernel) rfl, by decide +kernel, by decide +kernel⟩

theorem codeGeneratorGenerate_hygienic_iff_ownExit :
    Hygienic ((semanticsAnalyze ownExit).2.imports.map IrMethod.identifier) ownExitLlir ownExitLines ↔
      ownExitLlir.CleanNames :=
  codeGeneratorGenerate_hygienic_iff ownExit_generated.1 ownExit_generated.2.1 ownExit_generated.2.2.1
    ownExit_generated.2.2.2

/-- The failed bounds check calls the method `exit` of the program. -/
theorem ownExit_captured : ownExit.FromSource ∧ Accepts ownExit (semanticsAnalyze ownExit).2 ∧
    llirGeneratorGenerateLlir (semanticsAnalyze ownExit).2 = some ownExitLlir ∧
    codeGeneratorGenerate false ownExitLlir = some ownExitLines ∧
    ¬ Hygienic ((semanticsAnalyze ownExit).2.imports.map IrMethod.identifier) ownExitLlir ownExitLines := by
  refine ⟨ownExit_generated.1, ownExit_generated.2.1, ownExit_generated.2.2.1, ownExit_generated.2.2.2,
    fun hygienic => ?_⟩
  have called : exitSymbol ∈ references ownExitLines := by decide +kernel
  have defined : "exit" ∈ (definitions ownExitLines).map AssemblySymbol.name := by decide +kernel
  exact hygienic.exits exitSymbol called rfl defined

end Roast
