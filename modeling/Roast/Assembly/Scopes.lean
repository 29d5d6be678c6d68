import Roast.Assembly.LlirGenerator
import Roast.Semantics.Resolution

/-! The generator's symbol table follows the scopes of the type system: it finds, for every location of a
ready program, the field made from the declaration that the location denotes. -/
namespace Roast
open LlirGenerator

/-- What `generate_field` makes of a field at a scope level. -/
def IrField.llirField (level : Nat) (field : IrField) : LlirField :=
  let empty := llirFieldNew field.identifier level field.type.isArray field.arrayLength (some field)
  { empty with values := getFieldInitializer field.initializer empty.values }

def storage : List (List IrField) → String → Option LlirField
  | [], _ => none
  | scope :: scopes, identifier =>
    match scope.find? (fun field => field.identifier == identifier) with
    | some field => some (field.llirField scopes.length)
    | none => storage scopes identifier

/-- The symbol table holds the fields of the scopes; the names of temporaries do not count. -/
inductive Matches : List (List IrField) → List (List (String × LlirField)) → Prop where
  | nil : Matches [] []
  | cons {scope scopes table tables} (ready : ∀ field ∈ scope, field.Ready)
    (distinct : (scope.map IrField.identifier).Nodup)
    (entries : ∀ identifier, IsIdentifier identifier → table.lookup identifier =
      (scope.find? fun field => field.identifier == identifier).map (IrField.llirField scopes.length))
    (rest : Matches scopes tables) : Matches (scope :: scopes) (table :: tables)

namespace Matches
variable {scopes : List (List IrField)} {tables : List (List (String × LlirField))}

theorem length (h : Matches scopes tables) : tables.length = scopes.length := by
  induction h with
  | nil => rfl
  | cons _ _ _ _ ih => simp [ih]

theorem get (h : Matches scopes tables) {identifier : String} (name : IsIdentifier identifier) :
    (tables.findSome? fun table => table.lookup identifier) = storage scopes identifier := by
  induction h with
  | nil => rfl
  | @cons scope scopes table tables _ _ entries _ ih =>
    rw [List.findSome?_cons, entries identifier name, storage]
    cases scope.find? fun field => field.identifier == identifier with
    | none => exact ih
    | some field => rfl

/-- A visible field is ready and has a storage. -/
theorem field (h : Matches scopes tables) (methods : List IrMethod) {identifier : String} {field : IrField}
    (found : Context.field ⟨scopes, methods⟩ identifier = some field) :
    field.Ready ∧ field.identifier = identifier ∧
      ∃ level, level < scopes.length ∧ storage scopes identifier = some (field.llirField level) := by
  unfold Context.field at found
  dsimp only at found
  induction h with
  | nil => simp at found
  | @cons scope scopes _ _ ready _ _ _ ih =>
    rw [List.findSome?_cons] at found
    unfold storage
    cases hscope : scope.find? fun field => field.identifier == identifier with
    | some other =>
      rw [hscope] at found
      obtain rfl := Option.some.inj found
      exact ⟨ready _ (List.mem_of_find?_eq_some hscope), by simpa using List.find?_some hscope,
        scopes.length, by simp, rfl⟩
    | none =>
      rw [hscope] at found
      obtain ⟨hready, name, level, hlevel, hstorage⟩ := ih found
      exact ⟨hready, name, level, by simp; omega, hstorage⟩

end Matches

structure SameNames (tables tables' : List (List (String × LlirField))) : Prop where
  tail : tables'.tail = tables.tail
  length : tables'.length = tables.length
  head : ∀ identifier, IsIdentifier identifier →
    (tables'.headD []).lookup identifier = (tables.headD []).lookup identifier

theorem SameNames.matchesScopes {scopes : List (List IrField)} {tables tables' : List (List (String × LlirField))}
    (same : SameNames tables tables') (h : Matches scopes tables) : Matches scopes tables' := by
  cases h with
  | nil =>
    obtain rfl := List.length_eq_zero_iff.mp same.length
    exact .nil
  | cons ready distinct entries rest =>
    obtain ⟨table, tables, rfl⟩ := List.exists_cons_of_length_eq_add_one same.length
    obtain rfl := same.tail
    exact .cons ready distinct (fun identifier name => (same.head identifier name).trans (entries identifier name)) rest

/-- The exit goes to the block of the innermost enclosing loop. -/
def InnermostExit (exit : Option Nat × Nat) : Prop := exit.1 = some exit.2

def declaredNode (entry : Nat × LlirField) : Nat × Option Nat :=
  (entry.1, entry.2.declaration.map IrField.node)

/-- From `g` to `g'` the scopes and loops are restored, the lookups find the declarations `resolved`, and
no assertion fails, provided that the arrays are `small`. -/
structure LlirGenerator.Follows (small : Prop) (g g' : LlirGenerator) (resolved : List (Nat × Nat)) : Prop where
  failed : small → g'.failed = g.failed
  names : SameNames g.symbolTable g'.symbolTable
  breakBlocks : g'.breakBlocks = g.breakBlocks
  continueBlocks : g'.continueBlocks = g.continueBlocks
  lookups : (g'.lookups.map declaredNode).Perm
    (g.lookups.map declaredNode ++ resolved.map fun pair => (pair.1, some pair.2))
  exits : (∀ exit ∈ g.exits, InnermostExit exit) → ∀ exit ∈ g'.exits, InnermostExit exit
  temporaryCounter : g.temporaryCounter ≤ g'.temporaryCounter
  blockCounter : g.blockCounter ≤ g'.blockCounter

namespace LlirGenerator.Follows
variable {small : Prop} {g g' g'' : LlirGenerator} {resolved resolved' : List (Nat × Nat)}

theorem trans (h : g.Follows small g' resolved) (h' : g'.Follows small g'' resolved') :
    g.Follows small g'' (resolved ++ resolved') where
  failed := fun hsmall => (h'.failed hsmall).trans (h.failed hsmall)
  names := ⟨h'.names.tail.trans h.names.tail, h'.names.length.trans h.names.length,
    fun identifier name => (h'.names.head identifier name).trans (h.names.head identifier name)⟩
  breakBlocks := h'.breakBlocks.trans h.breakBlocks
  continueBlocks := h'.continueBlocks.trans h.continueBlocks
  lookups := by
    rw [List.map_append, ← List.append_assoc]
    exact h'.lookups.trans (h.lookups.append_right _)
  exits := h'.exits ∘ h.exits
  temporaryCounter := h.temporaryCounter.trans h'.temporaryCounter
  blockCounter := h.blockCounter.trans h'.blockCounter

theorem andThen (h : g.Follows small g' resolved) (h' : g'.Follows small g'' []) : g.Follows small g'' resolved := by
  simpa using h.trans h'

theorem before (h : g.Follows small g' []) (h' : g'.Follows small g'' resolved) : g.Follows small g'' resolved := h.trans h'

theorem matchesScopes (h : g.Follows small g' resolved) {scopes : List (List IrField)}
    (hm : Matches scopes g.symbolTable) : Matches scopes g'.symbolTable := h.names.matchesScopes hm

theorem perm (h : g.Follows small g' resolved) (same : resolved.Perm resolved') : g.Follows small g' resolved' :=
  { h with lookups := h.lookups.trans ((same.map _).append_left _) }

/-- Operations that touch only blocks and counters. -/
theorem of_same (failed : small → g'.failed = g.failed) (symbolTable : g'.symbolTable = g.symbolTable)
    (breakBlocks : g'.breakBlocks = g.breakBlocks) (continueBlocks : g'.continueBlocks = g.continueBlocks)
    (lookups : g'.lookups = g.lookups) (exits : g'.exits = g.exits)
    (temporaryCounter : g.temporaryCounter ≤ g'.temporaryCounter)
    (blockCounter : g.blockCounter ≤ g'.blockCounter) : g.Follows small g' [] :=
  ⟨failed, ⟨by rw [symbolTable], by rw [symbolTable], by simp [symbolTable]⟩, breakBlocks, continueBlocks,
    by simp [lookups], by simp [exits], temporaryCounter, blockCounter⟩

end LlirGenerator.Follows

section
variable {small : Prop} (g : LlirGenerator)

theorem addAssignment_follows (assignment : LlirAssignment) : g.Follows small (g.addAssignment assignment) [] :=
  .of_same (fun _ => rfl) rfl rfl rfl rfl rfl le_rfl le_rfl

theorem addMove_follows (source : LlirOperand) (destination : LlirField) :
    g.Follows small (g.addMove source destination) [] := addAssignment_follows g _

private theorem setTerminal_follows (terminal : LlirTerminal) : g.Follows small (g.setTerminal terminal) [] :=
  .of_same (fun _ => rfl) rfl rfl rfl rfl rfl le_rfl le_rfl

theorem newBlock_follows : g.Follows small g.newBlock.2 [] :=
  .of_same (fun _ => rfl) rfl rfl rfl rfl rfl le_rfl (Nat.le_succ _)

private theorem nextBlock_follows (block : Nat) : g.Follows small (g.nextBlock block) [] :=
  .of_same (fun _ => rfl) rfl rfl rfl rfl rfl le_rfl le_rfl

theorem jumpTo_follows (target next : Nat) : g.Follows small (g.jumpTo target next) [] :=
  (setTerminal_follows g _).andThen (nextBlock_follows _ _)

private theorem branchTo_follows (branch : LlirBranch) : g.Follows small (g.branchTo branch) [] :=
  (setTerminal_follows g _).andThen (nextBlock_follows _ _)

theorem branchNew_follows (type : LlirBranchType) (unsignedComparison : Bool) (left right : LlirOperand) :
    g.Follows small (g.branchNew type unsignedComparison left right).2 [] :=
  ((newBlock_follows g).andThen (newBlock_follows _)).andThen (branchTo_follows _ _)

private theorem assert_follows {condition : Prop} [Decidable condition] (h : condition) :
    g.Follows small (g.assert condition) [] := by
  rw [LlirGenerator.assert, if_pos h]
  exact .of_same (fun _ => rfl) rfl rfl rfl rfl rfl le_rfl le_rfl

theorem temporary_not_identifier {character : Char} (h : character = '$' ∨ character = '#') (rest : String)
    {identifier : String} (name : IsIdentifier identifier) : identifier ≠ character.toString ++ rest := by
  rintro rfl
  have first := name.2.2 character (by simp)
  obtain rfl | rfl := h <;> revert first <;> decide

private theorem newTemporary_follows {character : Char} (h : character = '$' ∨ character = '#') :
    g.Follows small (g.newTemporary character).2 [] where
  failed := fun _ => rfl
  names := by
    unfold newTemporary symbolTableSet addField
    dsimp only
    cases htables : g.symbolTable with
    | nil => exact ⟨rfl, rfl, fun _ _ => rfl⟩
    | cons table tables =>
      refine ⟨rfl, rfl, fun identifier name => ?_⟩
      have fresh := temporary_not_identifier h (toString g.temporaryCounter) name
      simp only [List.headD_cons, List.lookup_cons, beq_false_of_ne fresh]
  breakBlocks := rfl
  continueBlocks := rfl
  lookups := by
    rw [List.map_nil, List.append_nil]
    exact .refl _
  exits := id
  temporaryCounter := Nat.le_succ _
  blockCounter := le_rfl

theorem newLocalTemporary_follows : g.Follows small g.newLocalTemporary.2 [] := newTemporary_follows g (.inl rfl)

theorem newNonLocalTemporary_follows : g.Follows small g.newNonLocalTemporary.2 [] :=
  newTemporary_follows g (.inr rfl)

end

section
variable {small : Prop} {c : Context} {g : LlirGenerator}

/-- The lookup of a location finds the storage of the field that it denotes. -/
theorem lookup_found (hm : Matches c.scopes g.symbolTable) (location : IrLocation) {field : IrField}
    (found : c.field location.identifier = some field) :
    ∃ level, level < c.scopes.length ∧ (g.lookup location).1 = field.llirField level ∧
      storage c.scopes location.identifier = some (field.llirField level) ∧ field.Ready := by
  obtain ⟨ready, name, level, hlevel, hstorage⟩ := hm.field c.methods found
  have get : g.symbolTableGet location.identifier = some (field.llirField level) :=
    (hm.get (name ▸ ready.identifier)).trans hstorage
  exact ⟨level, hlevel, by simp [LlirGenerator.lookup, get], hstorage, ready⟩

theorem lookup_follows (hm : Matches c.scopes g.symbolTable) (location : IrLocation) {field : IrField}
    (found : c.field location.identifier = some field) :
    g.Follows small (g.lookup location).2 (c.resolveName location.node location.identifier) := by
  obtain ⟨ready, name, level, _, hstorage⟩ := hm.field c.methods found
  have get : g.symbolTableGet location.identifier = some (field.llirField level) :=
    (hm.get (name ▸ ready.identifier)).trans hstorage
  unfold LlirGenerator.lookup
  rw [get]
  refine ⟨fun _ => rfl, ⟨rfl, rfl, fun _ _ => rfl⟩, rfl, rfl, ?_, id, le_rfl, le_rfl⟩
  simp [Context.resolveName, found, declaredNode, IrField.llirField, llirFieldNew]

private theorem literalInRange_of_ready {literal : IrLiteral} (h : literal.Ready) : literalInRange literal := by
  unfold literalInRange
  rw [BitVec.le_def]
  exact h.value

private theorem generateLiteral_follows (g : LlirGenerator) {literal : IrLiteral} (h : literal.Ready) :
    g.Follows small (generateLiteral g literal).2 [] :=
  ((assert_follows g (literalInRange_of_ready h)).andThen (newLocalTemporary_follows _)).andThen
    (addMove_follows _ _ _)

mutual

/-- The lowered expression finds the declarations that its names resolve to. -/
theorem generateExpression_follows (g : LlirGenerator) (hm : Matches c.scopes g.symbolTable)
    (expression : IrExpression) {type : IrDataType} (h : ExpressionTyped readyRules c expression type) :
    g.Follows small (generateExpression g expression).2 (expression.resolve c) := by
  cases expression with
  | binary operator left right =>
    cases h with
    | binary op hl hr =>
      unfold generateExpression
      split
      · have temporary : g.Follows small _ _ := newNonLocalTemporary_follows g
        have first := temporary.before (generateExpression_follows _ (temporary.matchesScopes hm) left hl)
        have second := (first.andThen (addMove_follows _ (generateExpression g.newNonLocalTemporary.2 left).1
          g.newNonLocalTemporary.1)).andThen (branchNew_follows _ (if operator = .or then .equal else .notEqual)
          false (generateExpression g.newNonLocalTemporary.2 left).1 (.literal 1))
        have third := second.trans (generateExpression_follows _ (second.matchesScopes hm) right hr)
        exact (third.andThen (addMove_follows _ _ _)).andThen (jumpTo_follows _ _ _)
      · have first := generateExpression_follows g hm left hl
        have second := first.trans (generateExpression_follows _ (first.matchesScopes hm) right hr)
        exact (second.andThen (newLocalTemporary_follows _)).andThen (addAssignment_follows _ _)
  | not expression =>
    cases h with
    | not h =>
      exact ((generateExpression_follows g hm expression h).andThen (newLocalTemporary_follows _)).andThen
        (addAssignment_follows _ _)
  | negate expression =>
    cases h with
    | negate h =>
      exact ((generateExpression_follows g hm expression h).andThen (newLocalTemporary_follows _)).andThen
        (addAssignment_follows _ _)
  | len identifier length => exact (newLocalTemporary_follows g).andThen (addMove_follows _ _ _)
  | methodCall identifier arguments =>
    cases h with
    | methodCall h value =>
      have first : g.Follows small _ _ := newLocalTemporary_follows g
      cases h with
      | imported unshadowed found imported h =>
        exact (first.before (generateImportedArguments_follows _ (first.matchesScopes hm) arguments h)).andThen
          (addAssignment_follows _ _)
      | declared unshadowed found declared h =>
        exact (first.before (generateArguments_follows _ (first.matchesScopes hm) arguments h)).andThen
          (addAssignment_follows _ _)
  | literal literal =>
    cases h with
    | literal h => exact generateLiteral_follows g h.1
  | location location =>
    cases h with
    | location h => exact generateLocation_follows g hm location h

/-- The lowered location finds the declarations that its names resolve to. -/
private theorem generateLocation_follows (g : LlirGenerator) (hm : Matches c.scopes g.symbolTable)
    (location : IrLocation) {field : IrField} {type : IrDataType}
    (h : LocationTyped readyRules c location field type) :
    g.Follows small (generateLocation g location).2 (location.resolve c) := by
  cases location with
  | scalar node identifier =>
    cases h with
    | scalar found =>
      exact ((lookup_follows hm (.scalar node identifier) found).andThen
        (newLocalTemporary_follows _)).andThen (addMove_follows _ _ _)
  | element node identifier index =>
    cases h with
    | element found array h =>
      have first : g.Follows small _ _ := (lookup_follows hm (.element node identifier index) found).andThen
        (newLocalTemporary_follows _)
      have second := first.trans (generateExpression_follows _ (first.matchesScopes hm) index h)
      exact second.andThen (addAssignment_follows _ _)

private theorem generateImportedArguments_follows (g : LlirGenerator) (hm : Matches c.scopes g.symbolTable)
    (arguments : IrArguments) (h : ImportedArgumentsTyped readyRules c arguments) :
    g.Follows small (generateArguments g arguments).2 (arguments.resolve c) := by
  cases arguments with
  | nil => exact .of_same (fun _ => rfl) rfl rfl rfl rfl rfl le_rfl le_rfl
  | string string rest =>
    cases h with
    | string h => exact generateImportedArguments_follows g hm rest h
  | expression expression rest =>
    cases h with
    | expression ht h =>
      have first := generateExpression_follows g hm expression ht
      exact first.trans (generateImportedArguments_follows _ (first.matchesScopes hm) rest h)

private theorem generateArguments_follows (g : LlirGenerator) (hm : Matches c.scopes g.symbolTable)
    {fields : List IrField} (arguments : IrArguments) (h : ArgumentsTyped readyRules c fields arguments) :
    g.Follows small (generateArguments g arguments).2 (arguments.resolve c) := by
  cases arguments with
  | nil => exact .of_same (fun _ => rfl) rfl rfl rfl rfl rfl le_rfl le_rfl
  | string string rest => cases h
  | expression expression rest =>
    cases h with
    | expression ht h =>
      have first := generateExpression_follows g hm expression ht
      exact first.trans (generateArguments_follows _ (first.matchesScopes hm) rest h)

end

/-- The lowered call finds the declarations that its names resolve to. -/
private theorem generateMethodCall_follows (g : LlirGenerator) (hm : Matches c.scopes g.symbolTable)
    {identifier : String} {arguments : IrArguments} {type : IrDataType}
    (h : CallTyped readyRules c identifier arguments type) :
    g.Follows small (generateMethodCall g identifier arguments).2 (arguments.resolve c) := by
  have first : g.Follows small _ _ := newLocalTemporary_follows g
  cases h with
  | imported unshadowed found imported h =>
    exact (first.before (generateImportedArguments_follows _ (first.matchesScopes hm) arguments h)).andThen
      (addAssignment_follows _ _)
  | declared unshadowed found declared h =>
    exact (first.before (generateArguments_follows _ (first.matchesScopes hm) arguments h)).andThen
      (addAssignment_follows _ _)

private theorem generateBoundsCheck_follows (g : LlirGenerator) (index : LlirOperand) (length : Word) :
    g.Follows small (generateBoundsCheck g index length) [] :=
  ((branchNew_follows g _ _ _ _).andThen (setTerminal_follows _ _)).andThen (nextBlock_follows _ _)

theorem addRead_follows (g : LlirGenerator) (field destination : LlirField) (index : Option LlirOperand) :
    g.Follows small (g.addRead field destination index) [] := by
  cases index with
  | none => exact addMove_follows g _ _
  | some index => exact addAssignment_follows g _

private theorem addWrite_follows (g : LlirGenerator) (field : LlirField) (source : LlirOperand)
    (index : Option LlirOperand) : g.Follows small (g.addWrite field source index) [] :=
  .of_same (fun _ => rfl) rfl rfl rfl rfl rfl le_rfl le_rfl

private theorem generateAssignmentWrite_follows (g : LlirGenerator) (assignOperator : IrAssignOperator)
    (field : LlirField) (index : Option LlirOperand) (source : LlirOperand) :
    g.Follows small (generateAssignmentWrite g assignOperator field index source) [] := by
  unfold generateAssignmentWrite
  split
  · exact addWrite_follows g _ _ _
  · exact ((((newLocalTemporary_follows g).andThen (addRead_follows _ _ _ _)).andThen
      (newLocalTemporary_follows _)).andThen (addAssignment_follows _ _)).andThen (addWrite_follows _ _ _ _)

theorem generateSource_follows (g : LlirGenerator) (hm : Matches c.scopes g.symbolTable)
    {source : Option IrExpression} {type : IrDataType}
    (h : ∀ expression, source = some expression → ExpressionTyped readyRules c expression type) :
    g.Follows small (generateSource g source).2 ((source.map fun expression => expression.resolve c).getD []) := by
  cases source with
  | none => exact .of_same (fun _ => rfl) rfl rfl rfl rfl rfl le_rfl le_rfl
  | some expression => exact generateExpression_follows g hm expression (h expression rfl)

/-- The lookup, the index and the bounds check. -/
theorem generateAssignmentIndex_follows (g : LlirGenerator) (hm : Matches c.scopes g.symbolTable)
    {location : IrLocation} {field : IrField} {type : IrDataType}
    (h : LocationTyped readyRules c location field type) :
    g.Follows small (generateAssignmentIndex (g.lookup location).2 (g.lookup location).1 location).2
      (location.resolve c) := by
  cases h with
  | @scalar node identifier _ found => exact lookup_follows hm (.scalar node identifier) found
  | @element node identifier index _ found array hi =>
    have first : g.Follows small _ _ := lookup_follows hm (.element node identifier index) found
    exact (first.trans (generateExpression_follows _ (first.matchesScopes hm) _ hi)).andThen
      (generateBoundsCheck_follows _ _ _)

theorem generateAssignment_follows (g : LlirGenerator) (hm : Matches c.scopes g.symbolTable)
    {assignment : IrAssignment} (h : AssignmentTyped readyRules c assignment) :
    g.Follows small (generateAssignment g assignment) (assignment.resolve c) := by
  obtain ⟨field, type, hl, _, _, _, hx⟩ := h.location
  have first : g.Follows small _ _ := generateAssignmentIndex_follows g hm hl
  exact (first.trans (generateSource_follows _ (first.matchesScopes hm) hx)).andThen
    (generateAssignmentWrite_follows _ _ _ _ _)

private theorem generateForUpdate_follows (g : LlirGenerator) (hm : Matches c.scopes g.symbolTable)
    {update : IrForUpdate} (h : ForUpdateTyped readyRules c update) :
    g.Follows small (generateForUpdate g update) (update.resolve c) := by
  cases h with
  | methodCall h => exact generateMethodCall_follows g hm h
  | assignment h => exact generateAssignment_follows g hm h

end

structure LlirGenerator.Declares (small : Prop) (g g' : LlirGenerator) : Prop where
  failed : small → g'.failed = g.failed
  tail : g'.symbolTable.tail = g.symbolTable.tail
  length : g'.symbolTable.length = g.symbolTable.length
  breakBlocks : g'.breakBlocks = g.breakBlocks
  continueBlocks : g'.continueBlocks = g.continueBlocks
  lookups : g'.lookups = g.lookups
  exits : g'.exits = g.exits
  temporaryCounter : g.temporaryCounter ≤ g'.temporaryCounter
  blockCounter : g.blockCounter ≤ g'.blockCounter

theorem LlirGenerator.Declares.refl {small : Prop} (g : LlirGenerator) : g.Declares small g :=
  ⟨fun _ => rfl, rfl, rfl, rfl, rfl, rfl, rfl, le_rfl, le_rfl⟩

theorem LlirGenerator.Declares.trans {small : Prop} {g g' g'' : LlirGenerator} (h : g.Declares small g')
    (h' : g'.Declares small g'') : g.Declares small g'' :=
  ⟨fun hsmall => (h'.failed hsmall).trans (h.failed hsmall), h'.tail.trans h.tail, h'.length.trans h.length,
    h'.breakBlocks.trans h.breakBlocks, h'.continueBlocks.trans h.continueBlocks, h'.lookups.trans h.lookups,
    h'.exits.trans h.exits, h.temporaryCounter.trans h'.temporaryCounter, h.blockCounter.trans h'.blockCounter⟩

namespace IrField.Ready
variable {field : IrField}

private theorem initializerFits (h : field.Ready) (level : Nat) : InitializerFits field.initializer
    (llirFieldNew field.identifier level field.type.isArray field.arrayLength (some field)).values := by
  intro initializer given
  refine ⟨?_, fun literal mem => literalInRange_of_ready (h.literals initializer given literal mem).1⟩
  have := h.count initializer given
  simp only [llirFieldNew, List.length_replicate]
  omega

theorem analyzed (h : field.Ready) : field.analyzed = field := by
  unfold IrField.analyzed
  cases given : field.initializer with
  | none => rfl
  | some initializer => simp [h.count initializer given, ← given]

end IrField.Ready

section
variable {small : Prop} {g : LlirGenerator} {scope : List IrField} {scopes : List (List IrField)}

theorem generateField_field (hm : Matches (scope :: scopes) g.symbolTable) (field : IrField) :
    (generateField g field).1 = field.llirField scopes.length := by
  have level : g.symbolTableGetScopeLevel = scopes.length := by
    simp [symbolTableGetScopeLevel, hm.length]
  simp only [generateField, level]
  rfl

private theorem generateField_declares {field : IrField} (ready : field.Ready) :
    g.Declares small (generateField g field).2 := by
  unfold generateField LlirGenerator.assert
  dsimp only
  rw [if_pos (ready.initializerFits _)]
  unfold symbolTableSet
  refine ⟨fun _ => rfl, ?_, ?_, rfl, rfl, rfl, rfl, le_rfl, le_rfl⟩ <;> cases g.symbolTable <;> rfl

private theorem generateField_matches (hm : Matches (scope :: scopes) g.symbolTable) {field : IrField}
    (ready : field.Ready) (fresh : field.identifier ∉ scope.map IrField.identifier) :
    Matches ((scope ++ [field]) :: scopes) (generateField g field).2.symbolTable := by
  have made := generateField_field hm field
  have tables : (generateField g field).2.symbolTable =
      (g.symbolTableSet field.identifier (generateField g field).1).symbolTable := by
    unfold generateField LlirGenerator.assert
    dsimp only
    rw [if_pos (ready.initializerFits _)]
  rw [tables, made]
  unfold symbolTableSet
  dsimp only
  generalize g.symbolTable = symbolTable at hm
  cases hm with
  | cons readyScope distinct entries rest =>
    refine .cons (fun other mem => ?_) ?_ (fun identifier name => ?_) rest
    · obtain mem | mem := List.mem_append.mp mem
      · exact readyScope other mem
      · obtain rfl := List.mem_singleton.mp mem
        exact ready
    · rw [List.map_append, List.nodup_append]
      exact ⟨distinct, by simp, fun name mem other mem' => by simp at mem'; grind⟩
    · rw [List.lookup_cons, List.find?_append]
      by_cases same : identifier = field.identifier
      · subst same
        have absent : scope.find? (fun other => other.identifier == field.identifier) = none := by
          rw [List.find?_eq_none]
          intro other mem equal
          exact fresh (List.mem_map.mpr ⟨other, mem, by simpa using equal⟩)
        rw [absent]
        simp
      · have other : (field.identifier == identifier) = false := beq_false_of_ne (Ne.symm same)
        rw [beq_false_of_ne same, entries identifier name]
        simp [other]

private theorem foldl_addAssignment_declares (assignments : List LlirAssignment) (g : LlirGenerator) :
    g.Declares small (assignments.foldl addAssignment g) := by
  induction assignments generalizing g with
  | nil => exact .refl g
  | cons assignment rest ih =>
    have first : g.Declares small (g.addAssignment assignment) :=
      ⟨fun _ => rfl, rfl, rfl, rfl, rfl, rfl, rfl, le_rfl, le_rfl⟩
    exact first.trans (ih _)

private theorem generateFieldInitialization_declares {field : LlirField} (hsmall : small → field.valueCount < 2 ^ 32) :
    g.Declares small (generateFieldInitialization g field) ∧
      (generateFieldInitialization g field).symbolTable = g.symbolTable := by
  unfold generateFieldInitialization
  split
  · have asserted : g.Declares small (g.assert (field.valueCount < 2 ^ 32)) ∧
        (g.assert (field.valueCount < 2 ^ 32)).symbolTable = g.symbolTable := by
      unfold LlirGenerator.assert
      split
      · exact ⟨.refl g, rfl⟩
      · rename_i large
        exact ⟨⟨fun h => absurd (hsmall h) large, rfl, rfl, rfl, rfl, rfl, rfl, le_rfl, le_rfl⟩, rfl⟩
    refine ⟨asserted.1.trans (foldl_addAssignment_declares _ _), Eq.trans ?_ asserted.2⟩
    generalize g.assert (field.valueCount < 2 ^ 32) = g'
    induction arrayInitialization field generalizing g' with
    | nil => rfl
    | cons assignment rest ih => exact ih (g'.addAssignment assignment)
  · exact ⟨⟨fun _ => rfl, rfl, rfl, rfl, rfl, rfl, rfl, le_rfl, le_rfl⟩, rfl⟩

/-- A declaration adds one entry to the innermost scope. -/
theorem generateBlockField_declares (hm : Matches (scope :: scopes) g.symbolTable) {field : IrField}
    (ready : field.Ready) (fresh : field.identifier ∉ scope.map IrField.identifier)
    (hsmall : small → field.arrayLength < 2 ^ 32) :
    g.Declares small (generateBlockField g field) ∧
      Matches ((scope ++ [field]) :: scopes) (generateBlockField g field).symbolTable := by
  have count : (generateField g field).1.valueCount = field.arrayLength := rfl
  have added : ((generateField g field).2).Declares small
      ((generateField g field).2.addField (generateField g field).1) :=
    ⟨fun _ => rfl, rfl, rfl, rfl, rfl, rfl, rfl, le_rfl, le_rfl⟩
  have initialization : ((generateField g field).2.addField (generateField g field).1).Declares small
      (generateBlockField g field) ∧ (generateBlockField g field).symbolTable = _ :=
    generateFieldInitialization_declares (count ▸ hsmall)
  obtain ⟨initialized, same⟩ := initialization
  refine ⟨((generateField_declares ready).trans added).trans initialized, ?_⟩
  rw [same]
  exact generateField_matches hm ready fresh

/-- The fields of a block, declared one after the other. -/
theorem generateBlockFields_declares (hm : Matches (scope :: scopes) g.symbolTable) {fields : List IrField}
    (distinct : ((scope ++ fields).map IrField.identifier).Nodup) (ready : ∀ field ∈ fields, field.Ready)
    (hsmall : small → ∀ field ∈ fields, field.arrayLength < 2 ^ 32) :
    g.Declares small (fields.foldl generateBlockField g) ∧
      Matches ((scope ++ fields) :: scopes) (fields.foldl generateBlockField g).symbolTable := by
  induction fields generalizing g scope with
  | nil => exact ⟨.refl g, by simpa using hm⟩
  | cons field rest ih =>
    have fresh : field.identifier ∉ scope.map IrField.identifier := by
      rw [List.map_append, List.nodup_append] at distinct
      intro mem
      exact distinct.2.2 _ mem _ (by simp) rfl
    obtain ⟨declared, hm'⟩ := generateBlockField_declares hm (ready field (by simp)) fresh
      fun h => hsmall h field (by simp)
    obtain ⟨others, hm''⟩ := ih hm' (by simpa using distinct)
      (fun other mem => ready other (List.mem_cons_of_mem _ mem))
      (fun h other mem => hsmall h other (List.mem_cons_of_mem _ mem))
    exact ⟨declared.trans others, by simpa using hm''⟩

end

def LlirGenerator.InnermostLoop (g : LlirGenerator) (loop : Option (Nat × Nat)) (inLoop : Prop) : Prop :=
  inLoop → ∃ blocks, loop = some blocks ∧ g.breakBlocks.head? = some blocks.1 ∧
    g.continueBlocks.head? = some blocks.2

namespace LlirGenerator
variable {small : Prop} {g g' g'' : LlirGenerator} {resolved : List (Nat × Nat)} {loop : Option (Nat × Nat)}
  {inLoop : Prop}

theorem Follows.innermostLoop (h : g.Follows small g' resolved) (hl : g.InnermostLoop loop inLoop) :
    g'.InnermostLoop loop inLoop := by
  unfold InnermostLoop
  rw [h.breakBlocks, h.continueBlocks]
  exact hl

theorem Declares.innermostLoop (h : g.Declares small g') (hl : g.InnermostLoop loop inLoop) :
    g'.InnermostLoop loop inLoop := by
  unfold InnermostLoop
  rw [h.breakBlocks, h.continueBlocks]
  exact hl

/-- A loop is pushed before its parts are generated and popped after them. -/
theorem Follows.popLoop {breakBlock continueBlock : Nat}
    (h : (g.pushLoop breakBlock continueBlock).Follows small g' resolved) : g.Follows small g'.popLoop resolved := by
  have nonempty : g'.breakBlocks ≠ [] ∧ g'.continueBlocks ≠ [] := by
    rw [h.breakBlocks, h.continueBlocks]
    exact ⟨List.cons_ne_nil _ _, List.cons_ne_nil _ _⟩
  unfold LlirGenerator.popLoop LlirGenerator.assert
  rw [if_pos nonempty]
  exact ⟨h.failed, h.names, congrArg List.tail h.breakBlocks, congrArg List.tail h.continueBlocks, h.lookups,
    h.exits, h.temporaryCounter, h.blockCounter⟩

/-- A scope is pushed, filled with declarations, used and popped. -/
theorem Follows.popScope (hd : g.symbolTablePushScope.Declares small g')
    (h : g'.Follows small g'' resolved) : g.Follows small g''.symbolTablePopScope resolved := by
  have nonempty : g''.symbolTable ≠ [] := by
    rw [← List.length_pos_iff, h.names.length, hd.length]
    exact Nat.succ_pos _
  have tail : g''.symbolTable.tail = g.symbolTable := h.names.tail.trans hd.tail
  unfold symbolTablePopScope LlirGenerator.assert
  rw [if_pos nonempty]
  exact
    { failed := fun hsmall => (h.failed hsmall).trans (hd.failed hsmall)
      names := by
        dsimp only
        rw [tail]
        exact ⟨rfl, rfl, fun _ _ => rfl⟩
      breakBlocks := h.breakBlocks.trans hd.breakBlocks
      continueBlocks := h.continueBlocks.trans hd.continueBlocks
      lookups := by
        have same : g'.lookups = g.lookups := hd.lookups
        rw [← same]
        exact h.lookups
      exits := hd.exits ▸ h.exits
      temporaryCounter := hd.temporaryCounter.trans h.temporaryCounter
      blockCounter := hd.blockCounter.trans h.blockCounter }

end LlirGenerator

theorem map_analyzed {fields : List IrField} (ready : ∀ field ∈ fields, field.Ready) :
    fields.map IrField.analyzed = fields := by
  conv_rhs => rw [← List.map_id fields]
  exact List.map_congr_left fun field mem => (ready field mem).analyzed

section
variable {small : Prop} {returnType : IrDataType} {c : Context} {inLoop : Prop} {g : LlirGenerator}
  {loop : Option (Nat × Nat)}

private theorem generateReturnStatement_follows (hm : Matches c.scopes g.symbolTable) {expression : Option IrExpression}
    (h : ReturnTyped readyRules c returnType expression) :
    g.Follows small (generateReturnStatement g expression)
      ((expression.map fun expression => expression.resolve c).getD []) := by
  have value : g.Follows small (generateReturnValue g expression).2
      ((expression.map fun expression => expression.resolve c).getD []) := by
    cases h with
    | none => exact .of_same (fun _ => rfl) rfl rfl rfl rfl rfl le_rfl le_rfl
    | some h => exact generateExpression_follows g hm _ h
  exact ((value.andThen (setTerminal_follows _ _)).andThen (newBlock_follows _)).andThen (nextBlock_follows _ _)

/-- `break` and `continue` leave through the given block. -/
private theorem exit_follows {exit : Option Nat × Nat} (innermost : InnermostExit exit) :
    g.Follows small { g with exits := g.exits ++ [exit] } [] where
  failed := fun _ => rfl
  names := ⟨rfl, rfl, fun _ _ => rfl⟩
  breakBlocks := rfl
  continueBlocks := rfl
  lookups := by rw [List.map_nil, List.append_nil]
  exits := fun h other mem => by
    obtain mem | mem := List.mem_append.mp mem
    · exact h other mem
    · exact List.mem_singleton.mp mem ▸ innermost
  temporaryCounter := le_rfl
  blockCounter := le_rfl

theorem getBreakBlock_eq {block : Nat} (top : g.breakBlocks.head? = some block) : g.getBreakBlock = (block, g) := by
  have nonempty : g.breakBlocks ≠ [] := fun empty => by simp [empty] at top
  unfold getBreakBlock LlirGenerator.assert
  rw [if_pos nonempty, List.headD_eq_head?_getD, top, Option.getD_some]

theorem getContinueBlock_eq {block : Nat} (top : g.continueBlocks.head? = some block) :
    g.getContinueBlock = (block, g) := by
  have nonempty : g.continueBlocks ≠ [] := fun empty => by simp [empty] at top
  unfold getContinueBlock LlirGenerator.assert
  rw [if_pos nonempty, List.headD_eq_head?_getD, top, Option.getD_some]

private theorem generateBreakStatement_follows (hl : g.InnermostLoop loop True) :
    g.Follows small (generateBreakStatement g loop) [] := by
  obtain ⟨blocks, rfl, top, _⟩ := hl trivial
  unfold generateBreakStatement
  rw [getBreakBlock_eq top]
  have exit : InnermostExit ((some blocks).map Prod.fst, blocks.1) := rfl
  exact (((exit_follows exit).andThen (setTerminal_follows _ _)).andThen (newBlock_follows _)).andThen
    (nextBlock_follows _ _)

private theorem generateContinueStatement_follows (hl : g.InnermostLoop loop True) :
    g.Follows small (generateContinueStatement g loop) [] := by
  obtain ⟨blocks, rfl, _, top⟩ := hl trivial
  unfold generateContinueStatement
  rw [getContinueBlock_eq top]
  have exit : InnermostExit ((some blocks).map Prod.snd, blocks.2) := rfl
  exact (((exit_follows exit).andThen (setTerminal_follows _ _)).andThen (newBlock_follows _)).andThen
    (nextBlock_follows _ _)

/-- A loop up to its first branch. -/
theorem loopHead_follows (g : LlirGenerator) (hm : Matches c.scopes g.symbolTable) {condition : IrExpression}
    (hc : ExpressionTyped readyRules c condition .bool) (conditionBlock loopBlock endBlock continueBlock : Nat) :
    let entered := (g.pushLoop endBlock continueBlock).jumpTo conditionBlock conditionBlock
    let operand := (generateExpression entered condition).1
    (g.pushLoop endBlock continueBlock).Follows small
      ((generateExpression entered condition).2.branchTo
        ⟨.equal, false, operand, .literal 0, loopBlock, endBlock⟩) (condition.resolve c) := by
  intro entered operand
  have jumped : (g.pushLoop endBlock continueBlock).Follows small entered [] := jumpTo_follows _ _ _
  exact (jumped.before (generateExpression_follows entered hm condition hc)).andThen (branchTo_follows _ _)

/-- A loop up to the end of its block. -/
theorem loopBlock_follows (g : LlirGenerator) (hm : Matches c.scopes g.symbolTable) {condition : IrExpression}
    (hc : ExpressionTyped readyRules c condition .bool) {block : IrBlock}
    (conditionBlock loopBlock endBlock continueBlock : Nat)
    (hb : ∀ g : LlirGenerator, Matches c.scopes g.symbolTable →
      g.InnermostLoop (some (endBlock, continueBlock)) True →
      g.Follows small (generateBlock g (some (endBlock, continueBlock)) true block) (block.resolve c [])) :
    let entered := (g.pushLoop endBlock continueBlock).jumpTo conditionBlock conditionBlock
    let operand := (generateExpression entered condition).1
    let branch : LlirBranch := ⟨.equal, false, operand, .literal 0, loopBlock, endBlock⟩
    (g.pushLoop endBlock continueBlock).Follows small
      (generateBlock ((generateExpression entered condition).2.branchTo branch)
        (some (endBlock, continueBlock)) true block)
      (condition.resolve c ++ block.resolve c []) := by
  have head : Follows small _ _ _ := loopHead_follows g hm hc conditionBlock loopBlock endBlock continueBlock
  exact head.trans (hb _ (head.matchesScopes hm)
    (head.innermostLoop fun _ => ⟨(endBlock, continueBlock), rfl, rfl, rfl⟩))

mutual

/-- The lowered statement finds the declarations that its names resolve to. -/
theorem generateStatement_follows (g : LlirGenerator) (loop : Option (Nat × Nat)) (statement : IrStatement)
    {c : Context} {inLoop : Prop} (hm : Matches c.scopes g.symbolTable) (hl : g.InnermostLoop loop inLoop)
    (h : StatementTyped readyRules returnType c inLoop statement) (hsmall : small → statement.All smallArrays) :
    g.Follows small (generateStatement g loop statement) (statement.resolve c) := by
  cases statement with
  | assignment assignment =>
    cases h with
    | assignment h => exact generateAssignment_follows g hm h
  | methodCall identifier arguments =>
    cases h with
    | methodCall h => exact generateMethodCall_follows g hm h
  | ifStatement condition ifBlock =>
    cases h with
    | ifStatement hc hb =>
      have first : g.Follows small _ _ := (generateExpression_follows g hm condition hc).andThen
        (branchNew_follows _ .equal false (generateExpression g condition).1 (.literal 0))
      have second := first.trans (generateBlock_follows _ loop ifBlock (first.matchesScopes hm)
        (first.innermostLoop hl) hb fun small => (hsmall small).2)
      exact second.andThen (jumpTo_follows _ _ _)
  | ifElseStatement condition ifBlock elseBlock =>
    cases h with
    | ifElseStatement hc hb he =>
      have first : g.Follows small _ _ := (generateExpression_follows g hm condition hc).andThen
        (branchNew_follows _ .equal false (generateExpression g condition).1 (.literal 0))
      have second (target next : Nat) : g.Follows small _ _ := ((first.trans (generateBlock_follows _ loop
        ifBlock (first.matchesScopes hm) (first.innermostLoop hl) hb fun small => (hsmall small).2.1)).andThen
          (newBlock_follows _)).andThen (jumpTo_follows _ target next)
      have third (target next : Nat) : g.Follows small _ _ := (second target next).trans
        (generateBlock_follows _ loop elseBlock ((second target next).matchesScopes hm)
          ((second target next).innermostLoop hl) he fun small => (hsmall small).2.2)
      exact (third _ _).andThen (jumpTo_follows _ _ _)
  | forStatement initial condition update block =>
    cases h with
    | forStatement hi hc hu hb =>
      have before : g.Follows small _ _ := ((((generateAssignment_follows g hm hi).andThen
        (newBlock_follows _)).andThen (newBlock_follows _)).andThen (newBlock_follows _)).andThen
          (newBlock_follows _)
      have body (conditionBlock loopBlock endBlock continueBlock : Nat) := (loopBlock_follows _
        (before.matchesScopes hm) hc conditionBlock loopBlock endBlock continueBlock
          fun g hm hl => generateBlock_follows g _ block hm hl hb fun small => (hsmall small).2.2.2).andThen
            (jumpTo_follows _ continueBlock continueBlock)
      have updated (conditionBlock loopBlock endBlock continueBlock : Nat) :=
        (body conditionBlock loopBlock endBlock continueBlock).trans (generateForUpdate_follows _
          ((body conditionBlock loopBlock endBlock continueBlock).matchesScopes (before.matchesScopes hm)) hu)
      have whole : g.Follows small (generateStatement g loop (.forStatement initial condition update block)) _ :=
        before.trans (Follows.popLoop ((updated _ _ _ _).andThen (jumpTo_follows _ _ _)))
      -- the block is generated before the update, the checker analyzes it after
      refine whole.perm ?_
      simp only [IrStatement.resolve, List.append_assoc]
      exact ((List.perm_append_comm).append_left _).append_left _
  | whileStatement condition block =>
    cases h with
    | whileStatement hc hb =>
      have before : g.Follows small _ [] := ((newBlock_follows g).andThen (newBlock_follows _)).andThen
        (newBlock_follows _)
      have body := loopBlock_follows _ (before.matchesScopes hm) hc g.newBlock.1 g.newBlock.2.newBlock.1
        g.newBlock.2.newBlock.2.newBlock.1 g.newBlock.1 fun g hm hl => generateBlock_follows g _ block hm hl hb
          fun small => (hsmall small).2
      exact before.before (Follows.popLoop (body.andThen (jumpTo_follows _ _ _)))
  | returnStatement expression =>
    cases h with
    | returnStatement h => exact generateReturnStatement_follows hm h
  | breakStatement =>
    cases h with
    | breakStatement h => exact generateBreakStatement_follows fun _ => hl h
  | continueStatement =>
    cases h with
    | continueStatement h => exact generateContinueStatement_follows fun _ => hl h

/-- The lowered block finds the declarations that its names resolve to. -/
theorem generateBlock_follows (g : LlirGenerator) (loop : Option (Nat × Nat)) (block : IrBlock)
    {c : Context} {inLoop : Prop} (hm : Matches c.scopes g.symbolTable) (hl : g.InnermostLoop loop inLoop)
    (h : BlockTyped readyRules returnType c inLoop [] block) (hsmall : small → block.All smallArrays) :
    g.Follows small (generateBlock g loop true block) (block.resolve c []) := by
  cases block with
  | mk fields statements =>
    cases h with
    | mk scope h =>
      have entered : Matches ([] :: c.scopes) g.symbolTablePushScope.symbolTable :=
        .cons (by simp) .nil (fun _ _ => rfl) hm
      obtain ⟨declared, hm'⟩ := generateBlockFields_declares entered scope.distinct scope.field
        fun small => (hsmall small).1
      rw [map_analyzed scope.field] at h
      exact .popScope declared (generateStatements_follows _ loop statements hm'
        (declared.innermostLoop hl) h fun small => (hsmall small).2)

/-- The lowered statements find the declarations that their names resolve to. -/
theorem generateStatements_follows (g : LlirGenerator) (loop : Option (Nat × Nat)) (statements : IrStatements)
    {c : Context} {inLoop : Prop} (hm : Matches c.scopes g.symbolTable) (hl : g.InnermostLoop loop inLoop)
    (h : StatementsTyped readyRules returnType c inLoop statements)
    (hsmall : small → statements.All smallArrays) :
    g.Follows small (generateStatements g loop statements) (statements.resolve c) := by
  cases statements with
  | nil => exact .of_same (fun _ => rfl) rfl rfl rfl rfl rfl le_rfl le_rfl
  | cons statement rest =>
    cases h with
    | cons hs hr =>
      have first := generateStatement_follows g loop statement hm hl hs fun small => (hsmall small).1
      exact first.trans (generateStatements_follows _ loop rest (first.matchesScopes hm)
        (first.innermostLoop hl) hr fun small => (hsmall small).2)

end

end

section
variable {small : Prop}

/-- The fields that a loop over declarations makes, in their order. -/
theorem generateMethodArguments_declares {g : LlirGenerator} {scope : List IrField} {scopes : List (List IrField)}
    (hm : Matches (scope :: scopes) g.symbolTable) {fields : List IrField}
    (distinct : ((scope ++ fields).map IrField.identifier).Nodup) (ready : ∀ field ∈ fields, field.Ready) :
    (generateMethodArguments g fields).1 = fields.map (IrField.llirField scopes.length) ∧
      g.Declares small (generateMethodArguments g fields).2 ∧
      Matches ((scope ++ fields) :: scopes) (generateMethodArguments g fields).2.symbolTable := by
  induction fields generalizing g scope with
  | nil => exact ⟨rfl, .refl g, by simpa [generateMethodArguments] using hm⟩
  | cons field rest ih =>
    have fresh : field.identifier ∉ scope.map IrField.identifier := by
      rw [List.map_append, List.nodup_append] at distinct
      intro mem
      exact distinct.2.2 _ mem _ (by simp) rfl
    have declared : g.Declares small _ := generateField_declares (ready field (by simp))
    obtain ⟨fields, others, hm'⟩ := ih (generateField_matches hm (ready field (by simp)) fresh)
      (by simpa using distinct) fun other mem => ready other (List.mem_cons_of_mem _ mem)
    refine ⟨?_, declared.trans others, by simpa [generateMethodArguments] using hm'⟩
    exact congrArg₂ List.cons (generateField_field hm field) fields

theorem generateGlobals_eq (g : LlirGenerator) (fields : List IrField) :
    generateGlobals g fields = generateMethodArguments g fields := by
  induction fields generalizing g with
  | nil => rfl
  | cons field rest ih => simp [generateGlobals, generateMethodArguments, ih]

theorem generateMethod_follows {g : LlirGenerator} {c : Context} (hm : Matches c.scopes g.symbolTable)
    {method : IrMethod} (typed : BlockTyped readyRules method.returnType c False method.arguments method.block)
    (hsmall : small → method.block.All smallArrays) :
    g.Follows small (generateMethod g method).2 (method.block.resolve c method.arguments) := by
  obtain ⟨imported, returnType, identifier, arguments, fields, statements⟩ := method
  cases typed with
  | mk scope h =>
    have distinct := scope.distinct
    rw [List.map_append, List.nodup_append] at distinct
    have entered : Matches ([] :: c.scopes) g.symbolTablePushScope.symbolTable :=
      .cons (by simp) .nil (fun _ _ => rfl) hm
    obtain ⟨_, hArguments, hm'⟩ := generateMethodArguments_declares entered
      (by simpa using distinct.1) fun field mem => scope.field field (List.mem_append_left _ mem)
    have started (g : LlirGenerator) : g.Declares small { g.newBlock.2 with
        blocks := [], currentBlock := llirBlockNew g.newBlock.1, predecessors := [] } :=
      ⟨fun _ => rfl, rfl, rfl, rfl, rfl, rfl, rfl, le_rfl, Nat.le_succ _⟩
    obtain ⟨hFields, hm''⟩ := generateBlockFields_declares (g := { (generateMethodArguments
        g.symbolTablePushScope arguments).2.newBlock.2 with
        blocks := [], predecessors := []
        currentBlock := llirBlockNew (generateMethodArguments g.symbolTablePushScope arguments).2.newBlock.1 })
      hm' scope.distinct (fun field mem => scope.field field (List.mem_append_right _ mem))
      fun small => (hsmall small).1
    rw [map_analyzed scope.field] at h
    exact .popScope ((hArguments.trans (started _)).trans hFields)
      ((generateStatements_follows _ none statements hm'' (fun inLoop => inLoop.elim) h
        fun small => (hsmall small).2).andThen (setTerminal_follows _ _))

/-- The lowered methods find the declarations that their names resolve to. -/
theorem generateMethods_follows {g : LlirGenerator} {c : Context} (hm : Matches c.scopes g.symbolTable)
    {methods : List IrMethod} (typed : MethodsTyped readyRules c methods)
    (hsmall : small → ∀ method ∈ methods, method.block.All smallArrays) :
    g.Follows small (generateMethods g methods).2
      (methods.flatMap fun method => method.block.resolve ⟨c.scopes, []⟩ method.arguments) := by
  induction methods generalizing g c with
  | nil => exact .of_same (fun _ => rfl) rfl rfl rfl rfl rfl le_rfl le_rfl
  | cons method rest ih =>
    cases typed with
    | cons hmethod hrest =>
      have first : g.Follows small _ _ := generateMethod_follows hm (c := ⟨c.scopes, c.methods ++ [method]⟩)
        hmethod fun small => hsmall small method (by simp)
      have scopes : Context.scopes ⟨c.scopes, c.methods ++ [method]⟩ = Context.scopes ⟨c.scopes, []⟩ := rfl
      rw [IrBlock.resolve_congr scopes] at first
      exact first.trans (ih (c := ⟨c.scopes, c.methods ++ [method]⟩) (first.matchesScopes hm) hrest
        fun small other mem => hsmall small other (List.mem_cons_of_mem _ mem))

end

end Roast
