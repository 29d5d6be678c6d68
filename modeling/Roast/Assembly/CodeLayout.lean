import Roast.Assembly.CodeMachine
import Roast.Assembly.Symbols

/-! Where the code of the methods and of their blocks stands in the emitted lines. -/
namespace Roast
open Systems

structure CodeGenerator.PrintsLike (g g' : CodeGenerator) : Prop where
  pinholeOptimize : g'.pinholeOptimize = g.pinholeOptimize
  llir : g'.llir = g.llir
  offsets : g'.offsets = g.offsets
  strings : g'.strings = g.strings

namespace CodeGenerator.PrintsLike
variable {g g' : CodeGenerator} (same : g.PrintsLike g')
include same

theorem stringId (string : String) : g'.stringId string = g.stringId string := by
  rw [CodeGenerator.stringId, CodeGenerator.stringId, same.strings]

theorem loadToRegister (operand : LlirOperand) (destination : Register) :
    loadToRegister g' operand destination = loadToRegister g operand destination := by
  cases operand with
  | literal literal => rfl
  | field field => rw [Roast.loadToRegister, Roast.loadToRegister, same.offsets]
  | string string => rw [Roast.loadToRegister, Roast.loadToRegister, same.stringId]

theorem loadArrayToRegister (array : LlirField) (destination : Register) :
    loadArrayToRegister g' array destination = loadArrayToRegister g array destination := by
  rw [Roast.loadArrayToRegister, Roast.loadArrayToRegister, same.offsets]

theorem storeFromRegister (destination : LlirField) (source : Register) :
    storeFromRegister g' destination source = storeFromRegister g destination source := by
  rw [Roast.storeFromRegister, Roast.storeFromRegister, same.offsets]

theorem generateCallArguments (i : Nat) (arguments : List LlirOperand) :
    generateCallArguments g' i arguments = generateCallArguments g i arguments := by
  induction arguments generalizing i with
  | nil => rfl
  | cons argument rest ih =>
    rw [Roast.generateCallArguments, Roast.generateCallArguments, ih]
    simp only [same.loadToRegister]

theorem generateAssignmentLines (assignment : LlirAssignment) :
    generateAssignmentLines g' assignment = generateAssignmentLines g assignment := by
  cases assignment with
  | methodCall method arguments destination =>
    simp only [Roast.generateAssignmentLines, generateCall, same.generateCallArguments, same.storeFromRegister]
  | _ => simp only [Roast.generateAssignmentLines, same.loadToRegister, same.loadArrayToRegister, same.storeFromRegister]

theorem generateTerminal (terminal : LlirTerminal) (next : Option Nat) :
    generateTerminal g' terminal next = generateTerminal g terminal next := by
  cases terminal with
  | jump block => rw [Roast.generateTerminal, Roast.generateTerminal, generateJump, generateJump, same.pinholeOptimize]
  | branch branch =>
    rw [Roast.generateTerminal, Roast.generateTerminal, generateBranch, generateBranch, same.loadToRegister,
      same.loadToRegister]
  | llirReturn source =>
    rw [Roast.generateTerminal, Roast.generateTerminal, generateReturn, generateReturn, same.loadToRegister]
  | _ => rfl

theorem generateBlockLines (blocks : List LlirBlock) : generateBlockLines g' blocks = generateBlockLines g blocks := by
  induction blocks with
  | nil => rfl
  | cons block rest ih =>
    have each : Roast.generateAssignmentLines g' = Roast.generateAssignmentLines g := funext same.generateAssignmentLines
    rw [Roast.generateBlockLines, Roast.generateBlockLines, ih, same.generateTerminal, each]

theorem storeArguments (i : BitVec 32) (fields : List LlirField) : storeArguments g' i fields = storeArguments g i fields := by
  induction fields generalizing i with
  | nil => rfl
  | cons field rest ih => rw [Roast.storeArguments, Roast.storeArguments, ih, same.offsets]

theorem method (method : LlirMethod) : (methodGenerator g method).PrintsLike (methodGenerator g' method) :=
  ⟨same.pinholeOptimize, same.llir, by rw [methodGenerator, methodGenerator, same.offsets], same.strings⟩

end CodeGenerator.PrintsLike

def methodLines (g : CodeGenerator) (method : LlirMethod) : List AssemblyLine :=
  [.globl method.identifier, .label ⟨method.identifier, .method method.identifier⟩] ++ methodDeclaration g method ++
    generateBlockLines (methodGenerator g method) method.blocks

theorem CodeGenerator.PrintsLike.methodLines {g g' : CodeGenerator} (same : g.PrintsLike g') (method : LlirMethod) :
    methodLines g' method = methodLines g method := by
  rw [Roast.methodLines, Roast.methodLines, methodDeclaration, methodDeclaration, same.offsets, same.llir,
    (same.method method).storeArguments, (same.method method).generateBlockLines]

/-- The emitted lines with the code of every method in its place, no label twice, and lines that the assembler accepts. The
table of offsets before a method has nothing for a global. -/
structure CodeGenerator.Emits (g : CodeGenerator) (before : LlirMethod → Offsets) (lines : List AssemblyLine) : Prop where
  placed : ∀ method ∈ g.llir.methods, ∃ line, Placed lines line (methodLines (g.atMethod before method) method)
  globals : ∀ method ∈ g.llir.methods, ∀ field ∈ g.llir.fields, before method field.identifier = 0
  distinct : ((definitions lines).map AssemblySymbol.name).Nodup
  encodable : ∀ line ∈ lines, line.Encodable

theorem foldl_generateMethodLines_lines (methods : List LlirMethod)
    (few : ∀ method ∈ methods, method.arguments.length < 2 ^ 27) (g : CodeGenerator) :
    g.lines <+: (methods.foldl generateMethodLines g).lines := by
  induction methods generalizing g with
  | nil => exact List.prefix_rfl
  | cons method rest ih =>
    refine List.IsPrefix.trans ?_ (ih (fun other mem => few other (List.mem_cons_of_mem _ mem)) _)
    rw [generateMethodLines_eq _ (few method List.mem_cons_self)]
    exact List.prefix_append _ _

/-- Every method is printed, after those before it have left their offsets in the table. -/
theorem foldl_generateMethodLines_placed {globals : List String} (methods : List LlirMethod)
    (few : ∀ method ∈ methods, method.arguments.length < 2 ^ 27)
    (apart : ∀ method ∈ methods, ∀ field ∈ method.fields, field.identifier ∉ globals)
    (g : CodeGenerator) (unknown : ∀ name ∈ globals, g.offsets name = 0) {method : LlirMethod} (mem : method ∈ methods) :
    ∃ offsets : Offsets, (∀ name ∈ globals, offsets name = 0) ∧
      ∃ line, Placed (methods.foldl generateMethodLines g).lines line (methodLines { g with offsets := offsets } method) := by
  induction methods generalizing g with
  | nil => cases mem
  | cons first rest ih =>
    rw [List.foldl_cons]
    obtain rfl | mem := List.mem_cons.mp mem
    · refine ⟨g.offsets, unknown, g.lines.length, ?_⟩
      obtain ⟨back, printed⟩ := foldl_generateMethodLines_lines rest
        (fun other mem => few other (List.mem_cons_of_mem _ mem)) (generateMethodLines g method)
      rw [generateMethodLines_eq _ (few method List.mem_cons_self)] at printed
      exact placed_of_eq printed.symm
    · have unknown' : ∀ name ∈ globals, (generateMethodLines g first).offsets name = 0 := by
        intro name isGlobal
        have other : name ∉ first.fields.map LlirField.identifier := by
          intro named
          obtain ⟨field, inside, rfl⟩ := List.mem_map.mp named
          exact apart first List.mem_cons_self field inside isGlobal
        show (generateStackAllocation g.offsets first).2 name = 0
        rw [generateStackAllocation_eq]
        exact (foldl_allocateField_other other _).trans (unknown name isGlobal)
      obtain ⟨offsets, zero, line, placed⟩ := ih (fun other mem => few other (List.mem_cons_of_mem _ mem))
        (fun other mem => apart other (List.mem_cons_of_mem _ mem))
        (generateMethodLines g first) unknown' mem
      have same : CodeGenerator.PrintsLike { g with offsets := offsets }
          { generateMethodLines g first with offsets := offsets } := ⟨rfl, rfl, rfl, rfl⟩
      refine ⟨offsets, zero, line, ?_⟩
      rw [← same.methodLines]
      exact placed

private theorem generateBlockLines_append (g : CodeGenerator) (front rest : List LlirBlock) :
    ∃ before, generateBlockLines g (front ++ rest) = before ++ generateBlockLines g rest := by
  induction front with
  | nil => exact ⟨[], rfl⟩
  | cons block front ih =>
    obtain ⟨before, split⟩ := ih
    rw [List.cons_append, generateBlockLines, split, ← List.append_assoc]
    exact ⟨_, rfl⟩

def blockCode (g : CodeGenerator) (block : LlirBlock) (index : Nat) (rest : List LlirBlock) : List AssemblyLine :=
  (block.assignments.drop index).flatMap (generateAssignmentLines g) ++
    (generateTerminal g block.terminal (rest.head?.map LlirBlock.id) ++ generateBlockLines g rest)

def BlockAt (g : CodeGenerator) (lines : List AssemblyLine) (method : LlirMethod) (block : LlirBlock) (index line : Nat) :
    Prop :=
  ∃ front rest, method.blocks = front ++ block :: rest ∧ Placed lines line (blockCode g block index rest)

section
variable {g : CodeGenerator} {before : LlirMethod → Offsets} {lines : List AssemblyLine} {method : LlirMethod}
  {block : LlirBlock} {index line : Nat}

/-- The next assignment is in front of the others. -/
theorem BlockAt.assignment (here : BlockAt g lines method block index line) {assignment : LlirAssignment}
    (next : block.assignments[index]? = some assignment) :
    Placed lines line (generateAssignmentLines g assignment) ∧
      BlockAt g lines method block (index + 1) (line + (generateAssignmentLines g assignment).length) := by
  obtain ⟨front, rest, split, placed⟩ := here
  obtain ⟨inside, rfl⟩ := List.getElem?_eq_some_iff.mp next
  rw [blockCode, List.drop_eq_getElem_cons inside, List.flatMap_cons, List.append_assoc] at placed
  exact ⟨placed.left, front, rest, split, placed.right⟩

/-- Behind the last assignment comes the terminal. -/
theorem BlockAt.terminal (here : BlockAt g lines method block index line) (last : block.assignments[index]? = none) :
    ∃ front rest, method.blocks = front ++ block :: rest ∧
      Placed lines line (generateTerminal g block.terminal (rest.head?.map LlirBlock.id) ++ generateBlockLines g rest) := by
  obtain ⟨front, rest, split, placed⟩ := here
  rw [blockCode, List.drop_eq_nil_of_le (List.getElem?_eq_none_iff.mp last)] at placed
  exact ⟨front, rest, split, placed⟩

/-- A block whose label stands at a line. -/
theorem blockAt_of_label {front rest : List LlirBlock} (split : method.blocks = front ++ block :: rest)
    (placed : Placed lines line (generateBlockLines g (block :: rest))) :
    lines[line]? = some (.label (blockSymbol block.id)) ∧ BlockAt g lines method block 0 (line + 1) := by
  rw [generateBlockLines, List.cons_append, List.cons_append] at placed
  refine ⟨placed.head, front, rest, split, ?_⟩
  have code := placed.tail
  rw [List.append_assoc] at code
  exact code

/-- Every method has its label, its declaration behind it, and then its blocks. -/
theorem CodeGenerator.Emits.methodAt (emits : g.Emits before lines) (mem : method ∈ g.llir.methods) :
    ∃ line, labelLine lines method.identifier = some line ∧
      lines[line]? = some (.label ⟨method.identifier, .method method.identifier⟩) ∧
      Placed lines (line + 1) (methodDeclaration (g.atMethod before method) method ++
        generateBlockLines (methodGenerator (g.atMethod before method) method) method.blocks) := by
  obtain ⟨line, placed⟩ := emits.placed method mem
  rw [methodLines, List.append_assoc, List.cons_append, List.cons_append, List.nil_append] at placed
  have label := placed.tail.head
  exact ⟨line + 1, labelLine_of_getElem? emits.distinct label, label, placed.tail.tail⟩

/-- A jump to a block of a method comes to its code. -/
theorem CodeGenerator.Emits.blockAt (emits : g.Emits before lines) (mem : method ∈ g.llir.methods)
    (inside : block ∈ method.blocks) :
    ∃ line, labelLine lines (blockLabel block.id) = some line ∧ lines[line]? = some (.label (blockSymbol block.id)) ∧
      BlockAt (methodGenerator (g.atMethod before method) method) lines method block 0 (line + 1) := by
  obtain ⟨start, -, -, placed⟩ := emits.methodAt mem
  obtain ⟨front, rest, split⟩ := List.append_of_mem inside
  obtain ⟨earlier, printed⟩ := generateBlockLines_append (methodGenerator (g.atMethod before method) method) front
    (block :: rest)
  have code := placed.right
  rw [split, printed] at code
  obtain ⟨label, here⟩ := blockAt_of_label split code.right
  exact ⟨_, labelLine_of_getElem? emits.distinct label, label, here⟩

end

end Roast
