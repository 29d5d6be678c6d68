import Roast.Assembly.Lowering
import Roast.Semantics.Lengths

/-! The lengths of the bounds checks: every location is generated with a field that has the length of its declaration. -/
namespace Roast
open LlirGenerator

def LlirField.LengthRead (field : LlirField) : Prop :=
  ∀ declaration ∈ field.declaration, declaration.LengthRead field.valueCount

structure LlirGenerator.LengthsRead (g : LlirGenerator) : Prop where
  table : ∀ scope ∈ g.symbolTable, ∀ entry ∈ scope, entry.2.LengthRead
  lookups : ∀ entry ∈ g.lookups, entry.2.LengthRead

namespace LlirGenerator.LengthsRead
variable {g : LlirGenerator} (read : g.LengthsRead)
include read

/-- Operations on blocks, loops and counters. -/
theorem of_same {g' : LlirGenerator} (symbolTable : g'.symbolTable = g.symbolTable) (lookups : g'.lookups = g.lookups) :
    g'.LengthsRead :=
  ⟨symbolTable ▸ read.table, lookups ▸ read.lookups⟩

theorem assert (condition : Prop) [Decidable condition] : (g.assert condition).LengthsRead := by
  rw [LlirGenerator.assert]
  split
  · exact read
  · exact read.of_same rfl rfl

theorem symbolTableSet {field : LlirField} (length : field.LengthRead) (identifier : String) :
    (g.symbolTableSet identifier field).LengthsRead := by
  refine ⟨fun scope mem entry inside => ?_, read.lookups⟩
  rw [LlirGenerator.symbolTableSet] at mem
  cases tables : g.symbolTable with
  | nil =>
    simp only [tables] at mem
    exact absurd mem List.not_mem_nil
  | cons table rest =>
    have table_read := read.table
    rw [tables] at table_read
    simp only [tables] at mem
    rcases List.mem_cons.mp mem with rfl | mem
    · rcases List.mem_cons.mp inside with rfl | inside
      · exact length
      · exact table_read table List.mem_cons_self entry inside
    · exact table_read scope (List.mem_cons_of_mem _ mem) entry inside

theorem pushScope : g.symbolTablePushScope.LengthsRead := by
  refine ⟨fun scope mem entry inside => ?_, read.lookups⟩
  rcases List.mem_cons.mp mem with rfl | mem
  · exact absurd inside List.not_mem_nil
  · exact read.table scope mem entry inside

theorem popScope : g.symbolTablePopScope.LengthsRead := by
  have asserted := read.assert (g.symbolTable ≠ [])
  exact ⟨fun scope mem => read.table scope (List.mem_of_mem_tail mem), asserted.lookups⟩

theorem newTemporary (character : Char) : (g.newTemporary character).2.LengthsRead := by
  have counted : ({ g with temporaryCounter := g.temporaryCounter + 1 }.addField (g.newTemporary character).1).LengthsRead :=
    read.of_same rfl rfl
  refine counted.symbolTableSet (fun declaration none => ?_) (g.newTemporary character).1.identifier
  cases none

theorem newLocalTemporary : g.newLocalTemporary.2.LengthsRead := read.newTemporary '$'

theorem jumpTo (target next : Nat) : (g.jumpTo target next).LengthsRead := read.of_same rfl rfl

theorem branchTo (branch : LlirBranch) : (g.branchTo branch).LengthsRead := read.of_same rfl rfl

theorem pushLoop (breakBlock continueBlock : Nat) : (g.pushLoop breakBlock continueBlock).LengthsRead :=
  read.of_same rfl rfl

theorem newBlock : g.newBlock.2.LengthsRead := read.of_same rfl rfl

theorem branchNew (type : LlirBranchType) (unsignedComparison : Bool) (left right : LlirOperand) :
    (g.branchNew type unsignedComparison left right).2.LengthsRead := read.of_same rfl rfl

theorem lookup (location : IrLocation) : (g.lookup location).2.LengthsRead := by
  rw [LlirGenerator.lookup]
  cases found : g.symbolTableGet location.identifier with
  | none => exact read.of_same rfl rfl
  | some field =>
    refine ⟨read.table, fun entry mem => ?_⟩
    rcases List.mem_append.mp mem with mem | mem
    · exact read.lookups entry mem
    · obtain rfl := List.mem_singleton.mp mem
      obtain ⟨table, inside, listed⟩ := List.exists_of_findSome?_eq_some found
      obtain ⟨before, after, split, -⟩ := List.lookup_eq_some_iff.mp listed
      rw [split] at inside
      exact read.table _ inside (_, field) (List.mem_append_right _ List.mem_cons_self)

end LlirGenerator.LengthsRead

private theorem generateLiteral_lengths {g : LlirGenerator} (read : g.LengthsRead) (literal : IrLiteral) :
    (generateLiteral g literal).2.LengthsRead :=
  ((read.assert _).newLocalTemporary).of_same rfl rfl

mutual

private theorem generateExpression_lengths {g : LlirGenerator} (read : g.LengthsRead) (expression : IrExpression) :
    (generateExpression g expression).2.LengthsRead := by
  cases expression with
  | binary operator left right =>
    rw [generateExpression]
    split
    · have first := generateExpression_lengths (read.newTemporary '#') left
      refine LlirGenerator.LengthsRead.of_same (generateExpression_lengths ?_ right) rfl rfl
      exact first.of_same rfl rfl
    · have first := generateExpression_lengths read left
      have second := generateExpression_lengths first right
      exact second.newLocalTemporary.of_same rfl rfl
  | not expression => exact (generateExpression_lengths read expression).newLocalTemporary.of_same rfl rfl
  | negate expression => exact (generateExpression_lengths read expression).newLocalTemporary.of_same rfl rfl
  | len identifier length => exact read.newLocalTemporary.of_same rfl rfl
  | methodCall identifier arguments => exact (generateArguments_lengths read.newLocalTemporary arguments).of_same rfl rfl
  | literal literal => exact generateLiteral_lengths read literal
  | location location => exact generateLocation_lengths read location

private theorem generateLocation_lengths {g : LlirGenerator} (read : g.LengthsRead) (location : IrLocation) :
    (generateLocation g location).2.LengthsRead := by
  cases location with
  | scalar node identifier => exact ((read.lookup (.scalar node identifier)).newLocalTemporary).of_same rfl rfl
  | element node identifier index =>
    exact (generateExpression_lengths (read.lookup (.element node identifier index)).newLocalTemporary index).of_same rfl rfl

private theorem generateArguments_lengths {g : LlirGenerator} (read : g.LengthsRead) (arguments : IrArguments) :
    (generateArguments g arguments).2.LengthsRead := by
  cases arguments with
  | nil => exact read
  | string string rest => exact generateArguments_lengths read rest
  | expression expression rest => exact generateArguments_lengths (generateExpression_lengths read expression) rest

end

section
variable {g : LlirGenerator} (read : g.LengthsRead)
include read

private theorem generateMethodCall_lengths (identifier : String) (arguments : IrArguments) :
    (generateMethodCall g identifier arguments).2.LengthsRead :=
  (generateArguments_lengths read.newLocalTemporary arguments).of_same rfl rfl

private theorem generateSource_lengths (source : Option IrExpression) : (generateSource g source).2.LengthsRead := by
  cases source with
  | none => exact read
  | some expression => exact generateExpression_lengths read expression

private theorem generateAssignmentIndex_lengths (field : LlirField) (location : IrLocation) :
    (generateAssignmentIndex g field location).2.LengthsRead := by
  cases location with
  | scalar node identifier => exact read
  | element node identifier index =>
    exact (generateExpression_lengths read index).of_same rfl rfl

private theorem addRead_lengths (field destination : LlirField) (index : Option LlirOperand) :
    (g.addRead field destination index).LengthsRead := by
  cases index with
  | none => exact read.of_same rfl rfl
  | some index => exact read.of_same rfl rfl

private theorem generateAssignmentWrite_lengths (assignOperator : IrAssignOperator) (field : LlirField)
    (index : Option LlirOperand) (source : LlirOperand) :
    (generateAssignmentWrite g assignOperator field index source).LengthsRead := by
  rw [generateAssignmentWrite]
  split
  · exact read.of_same rfl rfl
  · have first := addRead_lengths read.newLocalTemporary field g.newLocalTemporary.1 index
    exact first.newLocalTemporary.of_same rfl rfl

private theorem generateAssignment_lengths (assignment : IrAssignment) :
    (generateAssignment g assignment).LengthsRead :=
  generateAssignmentWrite_lengths (generateSource_lengths
    (generateAssignmentIndex_lengths (read.lookup _) _ _) _) _ _ _ _

private theorem generateForUpdate_lengths (update : IrForUpdate) : (generateForUpdate g update).LengthsRead := by
  cases update with
  | methodCall identifier arguments => exact generateMethodCall_lengths read identifier arguments
  | assignment update => exact generateAssignment_lengths read update

private theorem generateField_lengths {field : IrField} (filled : filledRules.field field) :
    (generateField g field).2.LengthsRead := by
  refine (read.assert _).symbolTableSet (fun declaration given => ?_) _
  cases given
  exact filled

private theorem foldl_addAssignment_lengths (assignments : List LlirAssignment) :
    (assignments.foldl addAssignment g).LengthsRead := by
  induction assignments generalizing g with
  | nil => exact read
  | cons assignment rest ih => exact ih (LlirGenerator.LengthsRead.of_same read rfl rfl)

private theorem generateBlockField_lengths {field : IrField} (filled : filledRules.field field) :
    (generateBlockField g field).LengthsRead := by
  have declared := generateField_lengths read filled
  have added : ((generateField g field).2.addField (generateField g field).1).LengthsRead := declared.of_same rfl rfl
  show (generateFieldInitialization ((generateField g field).2.addField (generateField g field).1)
    (generateField g field).1).LengthsRead
  rw [generateFieldInitialization]
  split
  · exact foldl_addAssignment_lengths (added.assert _) _
  · exact added.of_same rfl rfl

private theorem generateBlockFields_lengths {fields : List IrField}
    (filled : ∀ field ∈ fields, filledRules.field field) :
    (fields.foldl generateBlockField g).LengthsRead := by
  induction fields generalizing g with
  | nil => exact read
  | cons field rest ih =>
    obtain ⟨first, others⟩ := List.forall_mem_cons.mp filled
    exact ih (generateBlockField_lengths read first) others

private theorem generateReturnStatement_lengths (expression : Option IrExpression) :
    (generateReturnStatement g expression).LengthsRead := by
  cases expression with
  | none => exact read.of_same rfl rfl
  | some expression => exact (generateExpression_lengths read expression).of_same rfl rfl

private theorem popLoop_lengths : g.popLoop.LengthsRead :=
  (read.assert (g.breakBlocks ≠ [] ∧ g.continueBlocks ≠ [])).of_same rfl rfl

end

mutual

private theorem generateStatement_lengths {g : LlirGenerator} (read : g.LengthsRead) (loop : Option (Nat × Nat))
    (statement : IrStatement) (filled : statement.All filledRules) : (generateStatement g loop statement).LengthsRead := by
  cases statement with
  | assignment assignment => exact generateAssignment_lengths read assignment
  | methodCall identifier arguments => exact generateMethodCall_lengths read identifier arguments
  | ifStatement condition ifBlock =>
    have head := (generateExpression_lengths read condition).branchNew .equal false
      (generateExpression g condition).1 (.literal 0)
    exact (generateBlock_lengths head loop true ifBlock filled.2).of_same rfl rfl
  | ifElseStatement condition ifBlock elseBlock =>
    have head := (generateExpression_lengths read condition).branchNew .equal false
      (generateExpression g condition).1 (.literal 0)
    have first := generateBlock_lengths head loop true ifBlock filled.2.1
    refine LlirGenerator.LengthsRead.of_same (generateBlock_lengths ?_ loop true elseBlock filled.2.2) rfl rfl
    exact first.of_same rfl rfl
  | forStatement initial condition update block =>
    have started := generateAssignment_lengths read initial
    rw [generateStatement]
    refine popLoop_lengths (LlirGenerator.LengthsRead.jumpTo (generateForUpdate_lengths ?_ update) _ _)
    refine LlirGenerator.LengthsRead.jumpTo (generateBlock_lengths ?_ _ true block filled.2.2.2) _ _
    refine LlirGenerator.LengthsRead.branchTo (generateExpression_lengths ?_ condition) _
    exact (started.newBlock.newBlock.newBlock.newBlock.pushLoop _ _).jumpTo _ _
  | whileStatement condition block =>
    rw [generateStatement]
    refine popLoop_lengths (LlirGenerator.LengthsRead.jumpTo (generateBlock_lengths ?_ _ true block filled.2) _ _)
    refine LlirGenerator.LengthsRead.branchTo (generateExpression_lengths ?_ condition) _
    exact (read.newBlock.newBlock.newBlock.pushLoop _ _).jumpTo _ _
  | returnStatement expression => exact generateReturnStatement_lengths read expression
  | breakStatement => exact (read.assert (g.breakBlocks ≠ [])).of_same rfl rfl
  | continueStatement => exact (read.assert (g.continueBlocks ≠ [])).of_same rfl rfl

private theorem generateBlock_lengths {g : LlirGenerator} (read : g.LengthsRead) (loop : Option (Nat × Nat))
    (newScope : Bool)
    (block : IrBlock) (filled : block.All filledRules) : (generateBlock g loop newScope block).LengthsRead := by
  cases block with
  | mk fields statements =>
    cases newScope with
    | false =>
      exact generateStatements_lengths (generateBlockFields_lengths read filled.1) loop statements filled.2
    | true =>
      exact (generateStatements_lengths (generateBlockFields_lengths read.pushScope filled.1) loop statements
        filled.2).popScope

private theorem generateStatements_lengths {g : LlirGenerator} (read : g.LengthsRead) (loop : Option (Nat × Nat))
    (statements : IrStatements) (filled : statements.All filledRules) :
    (generateStatements g loop statements).LengthsRead := by
  cases statements with
  | nil => exact read
  | cons statement rest =>
    exact generateStatements_lengths (generateStatement_lengths read loop statement filled.1) loop rest filled.2

end

section
variable {g : LlirGenerator} (read : g.LengthsRead)
include read

private theorem generateMethodArguments_lengths {fields : List IrField}
    (filled : ∀ field ∈ fields, filledRules.field field) :
    (generateMethodArguments g fields).2.LengthsRead := by
  induction fields generalizing g with
  | nil => exact read
  | cons field rest ih =>
    obtain ⟨first, others⟩ := List.forall_mem_cons.mp filled
    exact ih (generateField_lengths read first) others

private theorem generateMethod_lengths {method : IrMethod} (filled : method.All filledRules) :
    (generateMethod g method).2.LengthsRead := by
  have arguments := generateMethodArguments_lengths read.pushScope filled.arguments
  refine LlirGenerator.LengthsRead.popScope (LlirGenerator.LengthsRead.of_same
    (generateBlock_lengths ?_ none false method.block filled.block) rfl rfl)
  exact arguments.of_same rfl rfl

private theorem generateMethods_lengths {methods : List IrMethod}
    (filled : ∀ method ∈ methods, method.All filledRules) :
    (generateMethods g methods).2.LengthsRead := by
  induction methods generalizing g with
  | nil => exact read
  | cons method rest ih =>
    obtain ⟨first, others⟩ := List.forall_mem_cons.mp filled
    exact ih (generateMethod_lengths read first) others

end

private theorem generateLlir_lengths {program : IrProgram} (filled : program.All filledRules) :
    (generateLlir program).2.LengthsRead := by
  have start : llirGeneratorNew.LengthsRead := by
    refine ⟨fun scope mem entry inside => ?_, fun entry mem => absurd mem List.not_mem_nil⟩
    obtain rfl := List.mem_singleton.mp mem
    exact absurd inside List.not_mem_nil
  have globals : (generateGlobals llirGeneratorNew program.fields).2.LengthsRead := by
    rw [generateGlobals_eq]
    exact generateMethodArguments_lengths start filled.fields
  exact generateMethods_lengths globals filled.methods

def boundOf (field : LlirField) : Word := BitVec.ofInt 64 field.valueCount

/-- The length literals of a program are not misread: every one is a length and stands alone, and the array length of
its declaration, every `len` of it and the bound at every location that resolves to it are its value. -/
structure LengthsNotMisread (program analyzed : IrProgram) : Prop where
  declarations : program.All lengthsAccepted
  lens : analyzed.LensRead
  bounds : ∀ entry ∈ (generateLlir analyzed).2.lookups, ∃ declaration, entry.2.declaration = some declaration ∧
    (entry.1, declaration.node) ∈ analyzed.resolve ∧
    ∀ token ∈ declaration.lengthToken, (boundOf entry.2).toInt = token.magnitude

section
variable {program analyzed : IrProgram} (source : program.FromSource) (accepted : Accepts program analyzed)
include source accepted

/-- The generator looks up what the location resolves to. -/
private theorem accepts_lookups_resolve {entry : Nat × LlirField} (mem : entry ∈ (generateLlir analyzed).2.lookups) :
    ∃ declaration, entry.2.declaration = some declaration ∧ (entry.1, declaration.node) ∈ analyzed.resolve := by
  have ready := accepts_ready source accepted
  obtain ⟨_, declares, _⟩ := ready.globals False
  have whole := ready.generateMethods_follows False (fun impossible => impossible.elim) analyzed.methods.length
  have lookups := whole.lookups
  rw [declares.lookups, List.take_length] at lookups
  have logged := lookups.mem_iff.mp (List.mem_map_of_mem (f := declaredNode) mem)
  obtain ⟨pair, resolved, same⟩ := List.mem_map.mp logged
  obtain ⟨location, found⟩ := Prod.mk.inj same
  obtain ⟨declaration, given, node⟩ := Option.map_eq_some_iff.mp found.symm
  refine ⟨declaration, given, ?_⟩
  rw [node, ← location]
  exact resolved

/-- The length literals of an accepted program are not misread exactly if none of them stands next to an array
initializer with a value beyond 64 bits or with too many digits. -/
theorem accepts_lengthsNotMisread_iff : LengthsNotMisread program analyzed ↔ program.All lengthsInRange := by
  rw [← accepts_lengthsAccepted_iff source accepted]
  refine ⟨LengthsNotMisread.declarations, fun all => ?_⟩
  have inRange := (accepts_lengthsAccepted_iff source accepted).mp all
  have typed := (programTyped_and program).mpr ⟨accepts_typed source accepted, all⟩
  have numbers : program.All lengthRules :=
    IrProgram.all_of_typed typed (fun _ _ => trivial) fun field h => h.2.2
  have read := generateLlir_lengths (accepts_filled source accepted numbers)
  refine ⟨all, accepts_lensRead source accepted numbers, fun entry mem => ?_⟩
  obtain ⟨declaration, given, resolved⟩ := accepts_lookups_resolve source accepted mem
  refine ⟨declaration, given, resolved, fun token written => ?_⟩
  obtain ⟨-, small, count⟩ := read.lookups entry mem declaration given token written
  rw [boundOf, count]
  have range : token.magnitude < 2 ^ 63 := Nat.lt_of_le_of_lt small (by decide)
  rw [BitVec.toInt_ofInt]
  exact Int.bmod_eq_of_le (by omega) (by omega)

end

/-- `const int a[99999999999999999999] = {1, 2}; void main() { }` -/
def misreadLength : IrProgram where
  imports := []
  fields := [array]
  methods := [{
    imported := false, returnType := .void, identifier := "main", arguments := []
    block := .mk [] .nil }]
where
  array : IrField :=
    { node := 0, type := .intArray, constant := true, identifier := "a", arrayLength := -1
      lengthToken := some ⟨false, "99999999999999999999".toList⟩, initializer := some ⟨true, [literal 1 '1', literal 2 '2']⟩ }
  literal (value : Word) (digit : Char) : IrLiteral :=
    { negate := false, type := .int, value := value, token := some ⟨false, [digit]⟩ }

theorem misreadLength_accepted : misreadLength.FromSource ∧ Accepts misreadLength (semanticsAnalyze misreadLength).2 ∧
    ∃ field ∈ misreadLength.fields, ∃ token ∈ field.lengthToken, INT64_MAX < token.magnitude ∧
      (∃ initializer ∈ field.initializer, initializer.array = true) ∧ field.analyzed.arrayLength = 2 :=
  ⟨by decide +kernel, Prod.ext (by decide +kernel) rfl, by decide +kernel⟩

theorem accepts_lengthsNotMisread_iff_shadowing : LengthsNotMisread shadowing (semanticsAnalyze shadowing).2 ↔
    shadowing.All lengthsInRange :=
  accepts_lengthsNotMisread_iff (by decide +kernel : shadowing.FromSource) (Prod.ext (by decide +kernel) rfl)

end Roast
