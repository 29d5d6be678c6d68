import Roast.Assembly.Renaming
import Roast.Assembly.Kinds

/-! Static single assignment form: whether `ssa_transform` leaves every scalar of a method with one definition that runs
before its uses. -/
namespace Roast
open Systems

def LlirField.LocalScalar (globals : List String) (field : LlirField) : Prop :=
  field.isArray = false ∧ field.identifier ∉ globals

namespace SsaMethod
variable (method : SsaMethod)

def flow : List (FlowBlock LlirField) := method.blocks.map SsaBlock.flow

/-- The names that are defined in a method. A parameter is defined at entry. -/
def definitions : List String :=
  method.arguments.map LlirField.identifier ++ definedNames LlirField.identifier (method.flow.flatMap FlowBlock.lines)

def DefinedBefore (name : String) (point : Nat × Nat) : Prop :=
  name ∈ method.arguments.map LlirField.identifier ∨ DefinedOnWalks LlirField.identifier method.flow name point

inductive Mentions (field : LlirField) : Prop where
  | argument (mem : field ∈ method.arguments)
  | definition {block : SsaBlock} {assignment : SsaAssignment} (mem : block ∈ method.blocks)
    (inside : assignment ∈ block.assignments) (defined : assignment.line.1 = some field)
  | use {block : SsaBlock} {fields : List LlirField} (mem : block ∈ method.blocks) (listed : fields ∈ block.flow.uses)
    (used : field ∈ fields)
  | phi {block : SsaBlock} {destination : LlirField} {slots : List PhiSlot} {owner : Option Nat} (mem : block ∈ method.blocks)
    (inside : .phi destination slots ∈ block.assignments) (slot : (.field field, owner) ∈ slots)

/-- Every scalar has one definition. The definition dominates the uses of the scalar, and where the scalar is the argument of
a phi, it dominates the end of the block that the argument is paired with. -/
structure InSsaForm (globals : List String) : Prop where
  once : ∀ field, method.Mentions field → field.LocalScalar globals → method.definitions.count field.identifier = 1
  uses : ∀ block ∈ method.blocks, ∀ (index : Nat) (fields : List LlirField), block.flow.uses[index]? = some fields →
    ∀ field ∈ fields, field.LocalScalar globals → method.DefinedBefore field.identifier (block.id, index)
  phis : ∀ block ∈ method.blocks, ∀ destination slots, .phi destination slots ∈ block.assignments → ∀ field,
    ∀ source ∈ method.blocks, (.field field, some source.id) ∈ slots → field.LocalScalar globals →
      method.DefinedBefore field.identifier (source.id, source.assignments.length)

end SsaMethod

def LlirAssignment.mentioned (assignment : LlirAssignment) : List LlirField :=
  assignment.destination :: (assignment.array.toList ++ assignment.operands.flatMap LlirOperand.fields)

def SsaAssignment.plain? : SsaAssignment → Option LlirAssignment
  | .plain assignment => some assignment
  | .phi _ _ => none

def SsaBlock.code (block : SsaBlock) : List LlirAssignment × LlirTerminal :=
  (block.assignments.filterMap SsaAssignment.plain?, block.terminal)

def GlobalsKept (globals : List String) (fields fields' : List LlirField) : Prop :=
  List.Forall₂ (fun field field' => field.identifier ∈ globals → field'.identifier = field.identifier) fields fields'

structure CodeKept (globals : List String) (code code' : List LlirAssignment × LlirTerminal) : Prop where
  assignments : List.Forall₂ (fun assignment assignment' => GlobalsKept globals assignment.mentioned assignment'.mentioned)
    code.1 code'.1
  terminal : GlobalsKept globals (code.2.operands.flatMap LlirOperand.fields) (code'.2.operands.flatMap LlirOperand.fields)

def KeepsGlobals (globals : List String) (method : LlirMethod) (method' : SsaMethod) : Prop :=
  List.Forall₂ (CodeKept globals) (method.blocks.map fun block => (block.assignments, block.terminal))
    (method'.blocks.map SsaBlock.code)

namespace LlirMethod
variable (globals : List String) (method : LlirMethod)

def defined : List String := definedNames LlirField.identifier (method.flow.flatMap FlowBlock.lines)

/-- The definition of a local that comes last before a point in the order of the blocks, or the first if none does, dominates
another point. An array is a local here once a block has merged it into a scalar version. -/
def LatestDominates (field : LlirField) (position index : Nat) (point : Nat × Nat) : Prop :=
  field.identifier ∉ globals →
    (field.isArray = true → 1 < (definedBefore LlirField.identifier method.flow position index).count field.identifier) →
    field.identifier ∈ method.arguments.map LlirField.identifier ∨
      NumberedOnWalks LlirField.identifier method.flow field.identifier
        ((definedBefore LlirField.identifier method.flow position index).count field.identifier - 1) point

/-- Parameters are not assigned and do not meet, globals are assigned once, and the latest definition in the order of the
blocks dominates every use, and the end of every block from which control goes to one where the variable meets. -/
structure LatestDominate : Prop where
  parameters : ∀ argument ∈ method.arguments, argument.identifier ∉ method.defined
  once : ∀ name ∈ globals, method.defined.count name ≤ 1
  uses : ∀ (position : Nat) (block : FlowBlock LlirField), method.flow[position]? = some block →
    ∀ (index : Nat) (fields : List LlirField), block.uses[index]? = some fields → ∀ field ∈ fields,
      method.LatestDominates globals field position index (block.id, index)
  meets : ∀ (position : Nat) (source : FlowBlock LlirField), method.flow[position]? = some source →
    ∀ (position' : Nat) (target : LlirBlock), method.blocks[position']? = some target → target.id ∈ source.successors →
      ∀ field ∈ method.merged position' target,
        method.LatestDominates globals field position source.lines.length (source.id, source.lines.length)

end LlirMethod

def LocalName (name : String) : Prop :=
  TemporaryName 0 name ∨ ∃ identifier, IsIdentifier identifier ∧ ∃ level : Nat, name = identifier ++ "@" ++ toString level

private theorem isDigit_of_mem_toString {n : Nat} {character : Char} (mem : character ∈ (toString n).toList) :
    character.isDigit := by
  rw [Nat.toString_eq_ofList_toDigits, String.toList_ofList] at mem
  exact Nat.isDigit_of_mem_toDigits (by decide) (by decide) mem

def marks : List Char := ['@', '$', '#']

theorem LocalName.marked {name : String} (h : LocalName name) : ∃ character ∈ name.toList, character ∈ marks := by
  obtain ⟨i, -, character, kind, rfl⟩ | ⟨identifier, -, level, rfl⟩ := h
  · refine ⟨character, ?_, ?_⟩
    · simp [Char.toString]
    · obtain rfl | rfl := kind <;> decide
  · exact ⟨'@', by simp, by decide⟩

theorem IsIdentifier.unmarked {name : String} (h : IsIdentifier name) : ∀ character ∈ name.toList, character ∉ marks := by
  intro character mem marked
  have := h.2.2 character mem
  revert this
  simp only [marks, List.mem_cons, List.not_mem_nil, or_false] at marked
  obtain rfl | rfl | rfl := marked <;> decide

private theorem toString_unmarked (n : Nat) : ∀ character ∈ (toString n).toList, character ∉ '_' :: marks := by
  intro character mem marked
  have := isDigit_of_mem_toString mem
  revert this
  simp only [marks, List.mem_cons, List.not_mem_nil, or_false] at marked
  obtain rfl | rfl | rfl | rfl := marked <;> decide

private theorem version_zero (name : String) : version name 0 = name := if_pos rfl

private theorem version_toList {name : String} {number : Nat} (later : number ≠ 0) :
    (version name number).toList = name.toList ++ '_' :: (toString number).toList := by
  rw [version, if_neg later, String.toList_append, String.toList_append, List.append_assoc]
  rfl

private theorem mem_version {name : String} (number : Nat) {character : Char} (mem : character ∈ name.toList) :
    character ∈ (version name number).toList := by
  rw [version]
  split_ifs
  · exact mem
  · simp [mem]

/-- A version of a local is marked and no version of an identifier is. -/
private theorem IsIdentifier.version_unmarked {name : String} (h : IsIdentifier name) (number : Nat) :
    ∀ character ∈ (version name number).toList, character ∉ marks := by
  intro character mem marked
  by_cases later : number = 0
  · rw [later, version_zero] at mem
    exact h.unmarked character mem marked
  · rw [version_toList later, List.mem_append, List.mem_cons] at mem
    obtain mem | rfl | mem := mem
    · exact h.unmarked character mem marked
    · revert marked
      decide
    · exact toString_unmarked number character mem (List.mem_cons_of_mem _ marked)

private theorem LocalName.version_ne {name other : String} (h : LocalName name) (identifier : IsIdentifier other)
    (number n : Nat) :
    version other n ≠ version name number := by
  intro same
  obtain ⟨character, mem, marked⟩ := h.marked
  exact identifier.version_unmarked n character (same ▸ mem_version number mem) marked

/-- No local has the name of a later version of a local. -/
private theorem LocalName.ne_later {name other : String} (h : LocalName name) (h' : LocalName other) {number : Nat}
    (later : number ≠ 0) : other ≠ version name number := by
  intro same
  have lists : other.toList = name.toList ++ '_' :: (toString number).toList := same ▸ version_toList later
  have underscore : '_' ∈ other.toList := by
    rw [lists]
    simp
  obtain ⟨i, -, character, kind, rfl⟩ | ⟨identifier, isIdentifier, level, rfl⟩ := h'
  · simp only [String.toList_append, Char.toString, String.toList_singleton, List.singleton_append, List.mem_cons] at underscore
    obtain rfl | mem := underscore
    · obtain kind | kind := kind <;> revert kind <;> decide
    · exact toString_unmarked i _ mem List.mem_cons_self
  · obtain ⟨i, -, character, kind, rfl⟩ | ⟨identifier', isIdentifier', level', rfl⟩ := h
    · obtain ⟨first, rest, characters⟩ := List.exists_cons_of_ne_nil isIdentifier.1
      simp only [String.toList_append, characters, Char.toString, String.toList_singleton, List.cons_append,
        List.nil_append] at lists
      have marked := isIdentifier.unmarked first (by simp [characters])
      rw [(List.cons.inj lists).1] at marked
      refine marked ?_
      obtain rfl | rfl := kind <;> decide
    · simp only [String.toList_append, List.append_assoc] at lists
      have at_ : "@".toList = ['@'] := rfl
      rw [at_, List.singleton_append, List.singleton_append] at lists
      obtain ⟨-, rest⟩ := append_cons_inj isIdentifier.at_not_mem isIdentifier'.at_not_mem lists
      have mem : '_' ∈ (toString level).toList := by
        rw [rest]
        simp
      exact toString_unmarked level _ mem List.mem_cons_self

/-- The versions of a local are no versions of another name. -/
private theorem LocalName.version_inj {name other : String} (h : LocalName name)
    (known : IsIdentifier other ∨ LocalName other)
    {number n : Nat} (same : version other n = version name number) : other = name ∧ n = number := by
  obtain identifier | h' := known
  · exact absurd same (h.version_ne identifier number n)
  by_cases first : n = 0
  · subst first
    rw [version_zero] at same
    by_cases first' : number = 0
    · subst first'
      rw [version_zero] at same
      exact ⟨same, rfl⟩
    · exact absurd same (h.ne_later h' first')
  · by_cases first' : number = 0
    · subst first'
      rw [version_zero] at same
      exact absurd same.symm (h'.ne_later h first)
    · have lists := congrArg (fun name => name.toList.reverse) same
      simp only [version_toList first, version_toList first', List.reverse_append, List.reverse_cons, List.append_assoc,
        List.singleton_append] at lists
      have digits (n : Nat) : '_' ∉ (toString n).toList.reverse :=
        fun mem => toString_unmarked n _ (List.mem_reverse.mp mem) List.mem_cons_self
      obtain ⟨numbers, names⟩ := append_cons_inj (digits n) (digits number) lists
      exact ⟨String.toList_inj.mp (List.reverse_inj.mp names),
        toString_inj (String.toList_inj.mp (List.reverse_inj.mp numbers))⟩

private theorem version_eq_self {name : String} {number : Nat} (same : version name number = name) : number = 0 := by
  by_contra later
  have lengths := congrArg (fun name => name.toList.length) same
  simp [version_toList later] at lengths

section
variable {globals : List String} {ssa : SsaContext} {past : List String}

private theorem globalsKept_refl (fields : List LlirField) : GlobalsKept globals fields fields :=
  List.forall₂_same.mpr fun _ _ _ => rfl

private theorem globalsKept_use (once : ∀ name ∈ globals, past.count name ≤ 1) (fields : List LlirField) :
    GlobalsKept globals fields (fields.map (ssaRenaming.use past)) := by
  refine List.forall₂_map_right_iff.mpr (List.forall₂_same.mpr fun field _ isGlobal => ?_)
  exact congrArg LlirField.identifier (if_pos (once _ isGlobal))

private theorem LlirAssignment.renameOperands_destination (rename : LlirOperand → LlirOperand)
    (assignment : LlirAssignment) :
    (assignment.renameOperands rename).destination = assignment.destination := by
  cases assignment <;> rfl

private theorem LlirAssignment.renameOperands_array (rename : LlirOperand → LlirOperand) (assignment : LlirAssignment) :
    (assignment.renameOperands rename).array = assignment.array := by
  cases assignment <;> rfl

private theorem LlirAssignment.withDestination_mentioned (destination : LlirField) {assignment : LlirAssignment}
    {field : LlirField}
    (defined : assignment.defined = some field) : (assignment.withDestination destination).mentioned =
      destination :: (assignment.array.toList ++ assignment.operands.flatMap LlirOperand.fields) := by
  cases assignment with
  | arrayUpdate index value destination => cases defined
  | _ => rfl

/-- What a renamed assignment mentions. -/
private theorem SsaContext.Knows.mentioned (knows : ssa.Knows past) (assignment : LlirAssignment) :
    ∃ assignment', (ssa.renameDestination (.plain (assignment.renameOperands ssa.renamed))).2.2 = .plain assignment' ∧
      assignment'.mentioned = (assignment.defined.map (ssaRenaming.define past)).getD assignment.destination ::
        (assignment.array.toList ++ (assignment.operands.flatMap LlirOperand.fields).map (ssaRenaming.use past)) := by
  have renamed : (assignment.renameOperands ssa.renamed).mentioned = assignment.destination ::
      (assignment.array.toList ++ (assignment.operands.flatMap LlirOperand.fields).map (ssaRenaming.use past)) := by
    rw [LlirAssignment.mentioned, assignment.renameOperands_destination, assignment.renameOperands_array,
      assignment.renameOperands_operands, knows.renamed_operands]
  have line : (SsaAssignment.plain (assignment.renameOperands ssa.renamed)).line.1 = assignment.defined :=
    assignment.renameOperands_defined ssa.renamed
  cases defined : assignment.defined with
  | none =>
    rw [ssa.renameDestination_of_none (line.trans defined)]
    exact ⟨_, rfl, renamed⟩
  | some field =>
    have destination : assignment.destination = field := @SsaAssignment.destination_of_defined (.plain assignment) field defined
    rw [ssa.renameDestination_of_defined (line.trans defined), Option.map_some, Option.getD_some, knows.counters]
    by_cases first : past.count field.identifier = 0
    · rw [if_pos first]
      refine ⟨_, rfl, renamed.trans ?_⟩
      rw [destination]
      exact congrArg (· :: _) (if_pos first).symm
    · rw [if_neg first]
      refine ⟨_, rfl, ((assignment.renameOperands ssa.renamed).withDestination_mentioned _
        ((assignment.renameOperands_defined _).trans defined)).trans ?_⟩
      rw [assignment.renameOperands_array, assignment.renameOperands_operands, knows.renamed_operands]
      exact congrArg (· :: _) (if_neg first).symm

/-- A phi stays a phi. -/
private theorem SsaContext.renameDestination_phi (ssa : SsaContext) (destination : LlirField) (slots : List PhiSlot) :
    (ssa.renameDestination (.phi destination slots)).2.2.plain? = none := by
  have defined : (SsaAssignment.phi destination slots).line.1 = some destination := rfl
  rw [ssa.renameDestination_of_defined defined]
  split_ifs <;> rfl

/-- If no global is defined twice, none is renamed. -/
private theorem SsaContext.Knows.assignments_kept (knows : ssa.Knows past) {assignments : List SsaAssignment}
    (once : ∀ name ∈ globals,
      (past ++ definedNames LlirField.identifier (assignments.map SsaAssignment.line)).count name ≤ 1) :
    List.Forall₂ (fun assignment assignment' => GlobalsKept globals assignment.mentioned assignment'.mentioned)
      (assignments.filterMap SsaAssignment.plain?)
      ((ssa.transformAssignments assignments).2.2.filterMap SsaAssignment.plain?) := by
  induction assignments generalizing ssa past with
  | nil => exact .nil
  | cons assignment rest ih =>
    obtain ⟨next, -⟩ := knows.renameDestination (assignment.renameOperands ssa.renamed)
    rw [knows.renameOperands_line] at next
    rw [List.map_cons, definedNames_cons, ← List.append_assoc] at once
    have later := ih next once
    rw [SsaContext.transformAssignments, List.filterMap_cons, List.filterMap_cons]
    cases assignment with
    | phi destination slots =>
      rw [SsaAssignment.renameOperands, ssa.renameDestination_phi]
      exact later
    | plain assignment =>
      obtain ⟨assignment', run, mentioned⟩ := knows.mentioned assignment
      rw [SsaAssignment.renameOperands, run]
      refine .cons ?_ later
      rw [mentioned, LlirAssignment.mentioned]
      have before (name : String) (isGlobal : name ∈ globals) : past.count name ≤ 1 := by
        rw [List.append_assoc] at once
        exact ((List.sublist_append_left _ _).count_le name).trans (once name isGlobal)
      refine .cons (fun isGlobal => ?_) (List.rel_append (globalsKept_refl _) (globalsKept_use before _))
      cases defined : assignment.defined with
      | none => rfl
      | some field =>
        have destination : assignment.destination = field :=
          @SsaAssignment.destination_of_defined (.plain assignment) field defined
        have first : past.count field.identifier = 0 := by
          have := once field.identifier (destination ▸ isGlobal)
          have line : (SsaAssignment.plain assignment).line.1 = some field := defined
          rw [line, Option.map_some, Option.toList_some, List.count_append, List.count_append, List.count_singleton_self] at this
          omega
        rw [destination]
        exact congrArg LlirField.identifier (if_pos first)

/-- If no global is renamed, none is defined twice. -/
private theorem SsaContext.Knows.once_of_kept (knows : ssa.Knows past) {assignments : List SsaAssignment}
    (phis : ∀ destination slots, .phi destination slots ∈ assignments → destination.identifier ∉ globals)
    (kept : List.Forall₂ (fun assignment assignment' => GlobalsKept globals assignment.mentioned assignment'.mentioned)
      (assignments.filterMap SsaAssignment.plain?)
      ((ssa.transformAssignments assignments).2.2.filterMap SsaAssignment.plain?)) {name : String} (isGlobal : name ∈ globals)
    (before : past.count name ≤ 1) :
    (past ++ definedNames LlirField.identifier (assignments.map SsaAssignment.line)).count name ≤ 1 := by
  induction assignments generalizing ssa past with
  | nil => simpa [definedNames] using before
  | cons assignment rest ih =>
    obtain ⟨next, -⟩ := knows.renameDestination (assignment.renameOperands ssa.renamed)
    rw [knows.renameOperands_line] at next
    rw [SsaContext.transformAssignments, List.filterMap_cons, List.filterMap_cons] at kept
    rw [List.map_cons, definedNames_cons, ← List.append_assoc]
    have phis' (destination : LlirField) (slots : List PhiSlot) (mem : .phi destination slots ∈ rest) :=
      phis destination slots (List.mem_cons_of_mem _ mem)
    cases assignment with
    | phi destination slots =>
      rw [SsaAssignment.renameOperands, ssa.renameDestination_phi] at kept
      refine ih next phis' kept ?_
      have other := phis destination slots List.mem_cons_self
      have different : ¬ (destination.identifier == name) = true := by
        rintro same
        exact other (beq_iff_eq.mp same ▸ isGlobal)
      rw [List.count_append]
      have line : (SsaAssignment.phi destination slots).line.1 = some destination := rfl
      rw [line, Option.map_some, Option.toList_some, List.count_singleton, if_neg different]
      exact before
    | plain assignment =>
      obtain ⟨assignment', run, mentioned⟩ := knows.mentioned assignment
      rw [SsaAssignment.renameOperands, run] at kept
      obtain ⟨here, later⟩ := List.forall₂_cons.mp kept
      refine ih next phis' later ?_
      have line : (SsaAssignment.plain assignment).line.1 = assignment.defined := rfl
      rw [line, List.count_append]
      cases defined : assignment.defined with
      | none => exact before
      | some field =>
        rw [Option.map_some, Option.toList_some, List.count_singleton]
        by_cases same : field.identifier = name
        · have destination : assignment.destination = field :=
            @SsaAssignment.destination_of_defined (.plain assignment) field defined
          rw [mentioned, LlirAssignment.mentioned, defined] at here
          have unchanged := (List.forall₂_cons.mp here).1 (by rw [destination, same]; exact isGlobal)
          have number := ssaRenaming_numbers.define past field
          have first : past.count field.identifier = 0 := version_eq_self (number.symm.trans (unchanged.trans (congrArg _ destination)))
          rw [if_pos (beq_iff_eq.mpr same), ← same, first]
        · rw [if_neg fun equal => same (beq_iff_eq.mp equal)]
          exact before

/-- Where no global is defined twice, the stores to globals are kept. -/
private theorem SsaContext.Knows.blocks_kept (knows : ssa.Knows past) {blocks : List SsaBlock}
    (once : ∀ name ∈ globals,
      (past ++ definedNames LlirField.identifier ((blocks.map SsaBlock.flow).flatMap FlowBlock.lines)).count name ≤ 1) :
    List.Forall₂ (CodeKept globals) (blocks.map SsaBlock.code) ((ssa.transformedBlocks blocks).map SsaBlock.code) := by
  induction blocks generalizing ssa past with
  | nil => exact .nil
  | cons block rest ih =>
    have after := (knows.transformAssignments block.assignments).1
    rw [List.map_cons, List.flatMap_cons, definedNames_append, ← List.append_assoc] at once
    have here (name : String) (isGlobal : name ∈ globals) :
        (past ++ definedNames LlirField.identifier (block.assignments.map SsaAssignment.line)).count name ≤ 1 := by
      exact ((List.sublist_append_left _ _).count_le name).trans (once name isGlobal)
    refine .cons ⟨knows.assignments_kept here, ?_⟩ (ih after once)
    show GlobalsKept globals _ (List.flatMap _ (LlirTerminal.operands (LlirTerminal.renameOperands _ _)))
    rw [LlirTerminal.renameOperands_operands, after.renamed_operands]
    exact globalsKept_use here _

/-- Where the stores to globals are kept, no global is defined twice. -/
private theorem SsaContext.Knows.once_of_blocks_kept (knows : ssa.Knows past) {blocks : List SsaBlock}
    (phis : ∀ block ∈ blocks, ∀ destination slots, .phi destination slots ∈ block.assignments → destination.identifier ∉ globals)
    (kept : List.Forall₂ (CodeKept globals) (blocks.map SsaBlock.code) ((ssa.transformedBlocks blocks).map SsaBlock.code))
    {name : String} (isGlobal : name ∈ globals) (before : past.count name ≤ 1) :
    (past ++ definedNames LlirField.identifier ((blocks.map SsaBlock.flow).flatMap FlowBlock.lines)).count name ≤ 1 := by
  induction blocks generalizing ssa past with
  | nil => simpa [definedNames] using before
  | cons block rest ih =>
    obtain ⟨first, others⟩ := List.forall_mem_cons.mp phis
    obtain ⟨here, later⟩ := List.forall₂_cons.mp kept
    have after := (knows.transformAssignments block.assignments).1
    rw [List.map_cons, List.flatMap_cons, definedNames_append, ← List.append_assoc]
    exact ih after others later (knows.once_of_kept first here.assignments isGlobal before)

end

private theorem SsaBlock.blank_code (block : SsaBlock) : block.blank.code = block.code := by
  rw [code, code, blank, List.filterMap_map]
  congr 2
  funext assignment
  cases assignment <;> rfl

private theorem transformMethod_code (method : LlirMethod) : (transformMethod method).blocks.map SsaBlock.code =
    (ssaContextNew.transformedBlocks method.placed).map SsaBlock.code := by
  have blanks (blocks : List SsaBlock) : blocks.map SsaBlock.code = (blocks.map SsaBlock.blank).map SsaBlock.code := by
    rw [List.map_map]
    exact List.map_congr_left fun block _ => block.blank_code.symm
  rw [blanks, transformMethod_blank, ← blanks]

/-- Placing the phis keeps the assignments and the terminals. -/
private theorem LlirMethod.placed_code (method : LlirMethod) :
    method.placed.map SsaBlock.code = method.blocks.map fun block => (block.assignments, block.terminal) := by
  apply List.ext_getElem?
  intro position
  rw [List.getElem?_map, placed_getElem?, Option.map_map, List.getElem?_map]
  congr 1
  funext block
  rw [Function.comp_apply, SsaBlock.code, List.filterMap_append, List.filterMap_map, List.filterMap_map]
  have phis : List.filterMap (SsaAssignment.plain? ∘ fun field => newPhi field block.predecessors)
      (method.merged position block) = [] := List.filterMap_eq_nil_iff.mpr fun _ _ => rfl
  rw [phis, List.nil_append]
  exact Prod.ext (List.filterMap_some) rfl

/-- No global is renamed exactly if no global is assigned twice. -/
private theorem keepsGlobals_iff {globals : List String} {method : LlirMethod}
    (phis : ∀ block ∈ method.placed, ∀ destination slots, .phi destination slots ∈ block.assignments →
      destination.identifier ∉ globals) :
    KeepsGlobals globals method (transformMethod method) ↔ ∀ name ∈ globals, method.defined.count name ≤ 1 := by
  rw [KeepsGlobals, ← method.placed_code, transformMethod_code, LlirMethod.defined, ← method.placed_flow]
  constructor
  · intro kept name isGlobal
    have once := ssaContextNew_knows.once_of_blocks_kept phis kept isGlobal (Nat.zero_le 1)
    rwa [List.nil_append] at once
  · intro once
    refine ssaContextNew_knows.blocks_kept ?_
    rwa [List.nil_append]

/-- What lowering promises of a method: its names are told apart, its parameters are scalars, and its graph is well formed. -/
structure LlirMethod.SsaReady (globals : List String) (method : LlirMethod) : Prop where
  identifiers : ∀ name ∈ globals, IsIdentifier name
  fields : ∀ field ∈ method.fields, LocalName field.identifier
  definitions : ∀ block ∈ method.flow, ∀ line ∈ block.lines, ∀ field ∈ line.1,
    field.identifier ∈ globals ∨ LocalName field.identifier
  uses : ∀ block ∈ method.flow, ∀ fields ∈ block.uses, ∀ field ∈ fields,
    field.identifier ∈ globals ∨ LocalName field.identifier
  scalars : ∀ argument ∈ method.arguments, argument.isArray = false
  distinct : (method.arguments.map LlirField.identifier).Nodup
  graph : method.WellFormed
  ids : (method.blocks.map LlirBlock.id).Nodup

private theorem transformMethod_flow_eq (method : LlirMethod) :
    (transformMethod method).flow = ssaRenaming.renameBlocks [] method.flow := by
  rw [SsaMethod.flow, transformMethod_flow, method.placed_flow]

structure RenamedTo (method : LlirMethod) (position : Nat) (block : FlowBlock LlirField) (block' : SsaBlock) : Prop where
  id : block'.id = block.id
  length : block'.assignments.length = block.lines.length
  lines : block'.assignments.map SsaAssignment.line = ssaRenaming.renameLines
    (definedNames LlirField.identifier ((method.flow.take position).flatMap FlowBlock.lines)) block.lines
  uses : ∀ index, block'.flow.uses[index]? = block.uses[index]?.map
    (List.map (ssaRenaming.use (definedBefore LlirField.identifier method.flow position index)))

/-- A transformed block is a renamed one. -/
private theorem transformMethod_block {method : LlirMethod} {position : Nat} {block' : SsaBlock}
    (at' : (transformMethod method).blocks[position]? = some block') :
    ∃ block, method.flow[position]? = some block ∧ RenamedTo method position block block' := by
  have flow' : (ssaRenaming.renameBlocks [] method.flow)[position]? = some block'.flow := by
    rw [← transformMethod_flow_eq, SsaMethod.flow, List.getElem?_map, at']
    rfl
  have known := flow'
  rw [Renaming.renameBlocks_getElem?] at known
  obtain ⟨block, at_, same⟩ := Option.map_eq_some_iff.mp known
  have lines := congrArg FlowBlock.lines same
  have length := congrArg List.length lines
  rw [Renaming.renameBlock, Renaming.renameLines_length] at length
  exact ⟨block, at_, (congrArg FlowBlock.id same).symm, (List.length_map _).symm.trans length.symm, lines.symm,
    Renaming.renameBlocks_uses at_ flow'⟩

private theorem transformMethod_block' {method : LlirMethod} {position : Nat} {block : FlowBlock LlirField}
    (at_ : method.flow[position]? = some block) :
    ∃ block', (transformMethod method).blocks[position]? = some block' ∧ RenamedTo method position block block' := by
  have known := @Renaming.renameBlocks_getElem? _ _ ssaRenaming [] method.flow position
  rw [at_, ← transformMethod_flow_eq, SsaMethod.flow, List.getElem?_map] at known
  obtain ⟨block', at', -⟩ := Option.map_eq_some_iff.mp known
  obtain ⟨other, again, renamed⟩ := transformMethod_block at'
  obtain rfl := Option.some.inj (again.symm.trans at_)
  exact ⟨block', at', renamed⟩

private theorem LlirMethod.mem_merged {method : LlirMethod} {position : Nat} {block : LlirBlock} {field : LlirField}
    (mem : field ∈ method.merged position block) : field ∈ method.fields := by
  rw [merged] at mem
  split_ifs at mem
  · have listed := List.mem_of_mem_filter (List.mem_reverse.mp mem)
    obtain argument | declared := List.mem_append.mp listed
    · exact List.mem_append_left _ argument
    · obtain ⟨earlier, inside, field⟩ := List.mem_flatMap.mp declared
      exact List.mem_append_right _ (List.mem_flatMap.mpr ⟨earlier, List.mem_of_mem_take inside, field⟩)
  · cases mem

private theorem forall₂_mem {α β : Type*} {related : α → β → Prop} {items : List α} {items' : List β}
    (h : List.Forall₂ related items items') {item : α} (mem : item ∈ items) : ∃ item' ∈ items', related item item' := by
  induction h with
  | nil => cases mem
  | cons here _ ih =>
    obtain rfl | mem := List.mem_cons.mp mem
    · exact ⟨_, List.mem_cons_self, here⟩
    · obtain ⟨item', inside, related⟩ := ih mem
      exact ⟨item', List.mem_cons_of_mem _ inside, related⟩

/-- The phis of a transformed block are those of what meets in it. -/
private theorem LlirMethod.SsaReady.phi_of_merged {globals : List String} {method : LlirMethod}
    (ready : method.SsaReady globals)
    {position : Nat} {target : LlirBlock} (at_ : method.blocks[position]? = some target) {field : LlirField}
    (meets : field ∈ method.merged position target) :
    ∃ block ∈ (transformMethod method).blocks, ∃ destination slots, .phi destination slots ∈ block.assignments ∧
      SlotsRight (EndsBefore method.flow method.placed.length) field slots ∧
        (slots.map Prod.snd).Perm (target.predecessors.map some) := by
  obtain ⟨shapes, filled⟩ := ready.graph.transformMethod
  have shape := congrArg (·[position]?) shapes
  rw [List.getElem?_map, List.getElem?_map, at_] at shape
  obtain ⟨block, at', shape⟩ := Option.map_eq_some_iff.mp shape
  have original := method.placed_getElem? position
  rw [at_] at original
  have phis := transformMethod_slots method position _ block original at'
  obtain ⟨assignment, inside, phi⟩ := forall₂_mem phis (List.mem_append_left _ (List.mem_map_of_mem meets))
  rw [method.placed_flow] at phi
  cases phi with
  | @phi _ _ destination slots right =>
    have perm := (filled block (List.mem_of_getElem? at') destination slots inside).2
    rw [(Prod.mk.inj (Prod.mk.inj shape).2).1] at perm
    exact ⟨block, List.mem_of_getElem? at', destination, slots, inside, right, perm⟩

/-- A phi stands for a field that meets at its block, with a slot for each predecessor. -/
private theorem LlirMethod.SsaReady.merged_of_phi {globals : List String} {method : LlirMethod}
    (ready : method.SsaReady globals)
    {block : SsaBlock} (mem : block ∈ (transformMethod method).blocks) {destination : LlirField} {slots : List PhiSlot}
    (inside : .phi destination slots ∈ block.assignments) :
    ∃ position target field, method.blocks[position]? = some target ∧ field ∈ method.merged position target ∧
      SlotsRight (EndsBefore method.flow method.placed.length) field slots ∧
        (slots.map Prod.snd).Perm (target.predecessors.map some) := by
  obtain ⟨shapes, filled⟩ := ready.graph.transformMethod
  obtain ⟨position, at'⟩ := List.mem_iff_getElem?.mp mem
  have shape := congrArg (·[position]?) shapes
  rw [List.getElem?_map, List.getElem?_map, at', eq_comm] at shape
  obtain ⟨target, at_, shape⟩ := Option.map_eq_some_iff.mp shape
  have original := method.placed_getElem? position
  rw [at_] at original
  have phis := transformMethod_slots method position _ block original at'
  obtain ⟨assignment, listed, phi⟩ := forall₂_mem phis.flip inside
  rw [method.placed_flow] at phi
  cases phi with
  | @phi field _ _ _ right =>
    have perm := (filled block mem destination slots inside).2
    rw [← (Prod.mk.inj (Prod.mk.inj shape).2).1] at perm
    refine ⟨position, target, field, at_, ?_, right, perm⟩
    obtain merged | plain := List.mem_append.mp listed
    · obtain ⟨other, meets, same⟩ := List.mem_map.mp merged
      obtain ⟨rfl, -⟩ := SsaAssignment.phi.inj same
      exact meets
    · obtain ⟨other, -, same⟩ := List.mem_map.mp plain
      cases same

/-- The predecessors of a block are the blocks that have it as a successor. -/
private theorem LlirMethod.SsaReady.predecessors_iff {globals : List String} {method : LlirMethod}
    (ready : method.SsaReady globals)
    {target : LlirBlock} (mem : target ∈ method.blocks) (id : Nat) : id ∈ target.predecessors ↔
      ∃ (position : Nat) (source : FlowBlock LlirField), method.flow[position]? = some source ∧ source.id = id ∧
        target.id ∈ source.successors := by
  rw [(ready.graph.predecessors target mem).mem_iff, LlirMethod.sources, List.mem_flatMap]
  constructor
  · rintro ⟨source, inside, listed⟩
    obtain ⟨successor, chosen, rfl⟩ := List.mem_map.mp listed
    obtain ⟨leads, same⟩ := List.mem_filter.mp chosen
    obtain ⟨position, at_⟩ := List.mem_iff_getElem?.mp inside
    refine ⟨position, method.flowBlock position source, ?_, rfl, beq_iff_eq.mp same ▸ leads⟩
    rw [LlirMethod.flow, List.getElem?_mapIdx, at_]
    rfl
  · rintro ⟨position, block, at_, rfl, leads⟩
    rw [LlirMethod.flow, List.getElem?_mapIdx] at at_
    obtain ⟨source, here, rfl⟩ := Option.map_eq_some_iff.mp at_
    exact ⟨source, List.mem_of_getElem? here, List.mem_map.mpr ⟨target.id, List.mem_filter.mpr ⟨leads, beq_self_eq_true _⟩, rfl⟩⟩

/-- A block is known by its id. -/
private theorem LlirMethod.SsaReady.flow_inj {globals : List String} {method : LlirMethod}
    (ready : method.SsaReady globals)
    {position position' : Nat} {block block' : FlowBlock LlirField} (at_ : method.flow[position]? = some block)
    (at' : method.flow[position']? = some block') (same : block.id = block'.id) : position = position' ∧ block = block' := by
  have ids : method.flow.map FlowBlock.id = method.blocks.map LlirBlock.id := by
    apply List.ext_getElem?
    intro i
    rw [List.getElem?_map, LlirMethod.flow, List.getElem?_mapIdx, Option.map_map, List.getElem?_map]
    rfl
  have inside : position < (method.flow.map FlowBlock.id).length := by
    rw [List.length_map]
    exact (List.getElem?_eq_some_iff.mp at_).1
  have equal : position = position' := by
    refine (List.getElem?_inj inside (ids ▸ ready.ids)).mp ?_
    rw [List.getElem?_map, List.getElem?_map, at_, at', Option.map_some, Option.map_some, same]
  subst equal
  exact ⟨rfl, Option.some.inj (at_.symm.trans at')⟩

section
variable {globals : List String} {method : LlirMethod} (ready : method.SsaReady globals)
include ready

theorem LlirMethod.SsaReady.not_global {name : String} (h : LocalName name) (number : Nat) : version name number ∉ globals :=
  fun isGlobal => h.version_ne (ready.identifiers _ isGlobal) number 0 (version_zero _)

theorem LlirMethod.SsaReady.argument {name : String} (mem : name ∈ method.arguments.map LlirField.identifier) :
    LocalName name := by
  obtain ⟨argument, inside, rfl⟩ := List.mem_map.mp mem
  exact ready.fields argument (List.mem_append_left _ inside)

theorem LlirMethod.SsaReady.versions {name : String} (h : LocalName name) (number : Nat) :
    ∀ other ∈ definedNames LlirField.identifier (method.flow.flatMap FlowBlock.lines), ∀ n,
      version other n = version name number → other = name ∧ n = number := by
  intro other mem n
  obtain ⟨line, listed, defined⟩ := List.mem_filterMap.mp mem
  obtain ⟨block, inside, here⟩ := List.mem_flatMap.mp listed
  obtain ⟨field, isDefined, rfl⟩ := Option.map_eq_some_iff.mp defined
  exact h.version_inj ((ready.definitions block inside line here field isDefined).imp_left (ready.identifiers _))

private theorem LlirMethod.SsaReady.mem_arguments {name : String} (h : LocalName name) (number : Nat) :
    version name number ∈ method.arguments.map LlirField.identifier ↔
      number = 0 ∧ name ∈ method.arguments.map LlirField.identifier := by
  constructor
  · intro mem
    obtain ⟨same, first⟩ := h.version_inj (.inr (ready.argument mem)) (version_zero _)
    exact ⟨first.symm, same ▸ mem⟩
  · rintro ⟨rfl, mem⟩
    rwa [version_zero]

/-- A version is defined before a point if the definition with its number is. -/
private theorem LlirMethod.SsaReady.definedBefore_iff {name : String} (h : LocalName name) (number : Nat)
    (point : Nat × Nat) :
    (transformMethod method).DefinedBefore (version name number) point ↔
      number = 0 ∧ name ∈ method.arguments.map LlirField.identifier ∨
        NumberedOnWalks LlirField.identifier method.flow name number point := by
  refine or_congr (ready.mem_arguments h number) ?_
  rw [transformMethod_flow_eq]
  exact ssaRenaming_numbers.definedOnWalks (ready.versions h number) point

private theorem LlirMethod.SsaReady.count_definitions {name : String} (h : LocalName name) (number : Nat) :
    (transformMethod method).definitions.count (version name number) =
      (method.arguments.map LlirField.identifier).count (version name number) +
        if number < method.defined.count name then 1 else 0 := by
  have names := ssaRenaming_numbers.definedNames_renameBlocks [] method.flow
  rw [SsaMethod.definitions, transformMethod_flow_eq, List.count_append]
  refine congrArg _ ((congrArg (List.count _) names).trans ((Renaming.count_versions [] (ready.versions h number)).trans ?_))
  rw [List.count_nil, Nat.zero_add]
  exact if_congr (and_iff_right (Nat.zero_le _)) rfl rfl

/-- What stands for a use is a scalar unless it is still an array. -/
private theorem LlirMethod.SsaReady.localScalar_use {field : LlirField} (h : LocalName field.identifier)
    (past : List String) :
    (ssaRenaming.use past field).LocalScalar globals ↔ (field.isArray = true → 1 < past.count field.identifier) := by
  rw [LlirField.LocalScalar, use_identifier, and_iff_left (ready.not_global h _)]
  by_cases few : past.count field.identifier ≤ 1
  · have same : ssaRenaming.use past field = field := if_pos few
    rw [same, ← not_lt] at *
    simp [few]
  · have same : ssaRenaming.use past field = versionField field.identifier (past.count field.identifier - 1) := if_neg few
    rw [same]
    exact ⟨fun _ _ => not_le.mp few, fun _ => rfl⟩

variable (parameters : ∀ argument ∈ method.arguments, argument.identifier ∉ method.defined)
  (once : ∀ name ∈ globals, method.defined.count name ≤ 1)
include parameters once

/-- The condition at a use is what the form demands of the renamed use. -/
private theorem LlirMethod.SsaReady.latestDominates_iff {field : LlirField}
    (known : field.identifier ∈ globals ∨ LocalName field.identifier) (position index : Nat) (point : Nat × Nat) :
    method.LatestDominates globals field position index point ↔
      ((ssaRenaming.use (definedBefore LlirField.identifier method.flow position index) field).LocalScalar globals →
        (transformMethod method).DefinedBefore
          (ssaRenaming.use (definedBefore LlirField.identifier method.flow position index) field).identifier point) := by
  have most (name : String) : (definedBefore LlirField.identifier method.flow position index).count name ≤
      method.defined.count name := (definedBefore_extends _ _ _).sublist.count_le name
  obtain isGlobal | h := known
  · have same : ssaRenaming.use (definedBefore LlirField.identifier method.flow position index) field = field :=
      if_pos ((most _).trans (once _ isGlobal))
    rw [same]
    exact iff_of_true (fun other => absurd isGlobal other) fun other => absurd isGlobal other.2
  · have other : field.identifier ∉ globals := version_zero field.identifier ▸ ready.not_global h 0
    have name := ssaRenaming_numbers.use (definedBefore LlirField.identifier method.flow position index) field
    have number := ready.definedBefore_iff h
      ((definedBefore LlirField.identifier method.flow position index).count field.identifier - 1) point
    rw [ready.localScalar_use h]
    refine (imp_iff_right other).trans (imp_congr_right fun _ => ?_)
    refine Iff.trans ?_ (number.symm.trans (iff_of_eq (congrArg (fun name => SsaMethod.DefinedBefore _ name point) name.symm)))
    refine or_congr_left ⟨fun isArgument => ⟨?_, isArgument⟩, And.right⟩
    obtain ⟨argument, mem, same⟩ := List.mem_map.mp isArgument
    have none := List.count_eq_zero.mpr (same ▸ parameters argument mem)
    have := most field.identifier
    omega

/-- The renamed uses are defined before exactly if the latest definitions dominate them. -/
private theorem LlirMethod.SsaReady.uses_iff :
    (∀ block ∈ (transformMethod method).blocks, ∀ (index : Nat) (fields : List LlirField),
      block.flow.uses[index]? = some fields → ∀ field ∈ fields, field.LocalScalar globals →
        (transformMethod method).DefinedBefore field.identifier (block.id, index)) ↔
    ∀ (position : Nat) (block : FlowBlock LlirField), method.flow[position]? = some block →
      ∀ (index : Nat) (fields : List LlirField), block.uses[index]? = some fields → ∀ field ∈ fields,
        method.LatestDominates globals field position index (block.id, index) := by
  constructor
  · intro form position block at_ index fields listed field used
    obtain ⟨block', at', renamed⟩ := transformMethod_block' at_
    have known := ready.uses block (List.mem_of_getElem? at_) fields (List.mem_of_getElem? listed) field used
    rw [ready.latestDominates_iff parameters once known, ← renamed.id]
    refine form block' (List.mem_of_getElem? at') index _ ?_ _ (List.mem_map_of_mem used)
    rw [renamed.uses, listed, Option.map_some]
  · intro condition block' mem' index fields' listed' field' used'
    obtain ⟨position, at'⟩ := List.mem_iff_getElem?.mp mem'
    obtain ⟨block, at_, renamed⟩ := transformMethod_block at'
    obtain ⟨fields, listed, rfl⟩ := Option.map_eq_some_iff.mp ((renamed.uses index).symm.trans listed')
    obtain ⟨field, used, rfl⟩ := List.mem_map.mp used'
    have known := ready.uses block (List.mem_of_getElem? at_) fields (List.mem_of_getElem? listed) field used
    have here := condition position block at_ index fields listed field used
    rw [ready.latestDominates_iff parameters once known] at here
    rw [renamed.id]
    exact here

/-- The slots of the phis are defined before exactly if the latest definitions dominate the ends of the predecessors. -/
private theorem LlirMethod.SsaReady.phis_iff :
    (∀ block ∈ (transformMethod method).blocks, ∀ destination slots, .phi destination slots ∈ block.assignments → ∀ field,
      ∀ source ∈ (transformMethod method).blocks, (.field field, some source.id) ∈ slots → field.LocalScalar globals →
        (transformMethod method).DefinedBefore field.identifier (source.id, source.assignments.length)) ↔
    ∀ (position : Nat) (source : FlowBlock LlirField), method.flow[position]? = some source →
      ∀ (position' : Nat) (target : LlirBlock), method.blocks[position']? = some target → target.id ∈ source.successors →
        ∀ field ∈ method.merged position' target,
          method.LatestDominates globals field position source.lines.length (source.id, source.lines.length) := by
  constructor
  · intro form position source at_ position' target at' leads field meets
    rw [ready.latestDominates_iff parameters once (.inr (ready.fields field (LlirMethod.mem_merged meets)))]
    obtain ⟨block, inside, destination, slots, phi, right, filled⟩ := ready.phi_of_merged at' meets
    have predecessor := (ready.predecessors_iff (List.mem_of_getElem? at') source.id).mpr ⟨position, source, at_, rfl, leads⟩
    obtain ⟨⟨operand, owner⟩, slot, same⟩ := List.mem_map.mp (filled.mem_iff.mpr (List.mem_map_of_mem predecessor))
    obtain rfl : owner = some source.id := same
    obtain ⟨again, other, -, place, id, rfl⟩ := right.owned operand source.id slot
    obtain ⟨rfl, rfl⟩ := ready.flow_inj place at_ id
    obtain ⟨source', place', renamed⟩ := transformMethod_block' at_
    rw [← renamed.id] at slot
    have dominated := form block inside destination slots phi _ source' (List.mem_of_getElem? place') slot
    rw [renamed.id, renamed.length] at dominated
    exact dominated
  · intro condition block inside destination slots phi field' source' mem' slot isLocal
    obtain ⟨position', target, field, at', meets, right, filled⟩ := ready.merged_of_phi inside phi
    obtain ⟨position, source, -, at_, id, same⟩ := right.owned _ _ slot
    obtain rfl := LlirOperand.field.inj same
    obtain ⟨place, placed⟩ := List.mem_iff_getElem?.mp mem'
    obtain ⟨other, again, renamed⟩ := transformMethod_block placed
    obtain ⟨rfl, rfl⟩ := ready.flow_inj again at_ (renamed.id.symm.trans id.symm)
    have owned := filled.mem_iff.mp (List.mem_map_of_mem slot)
    obtain ⟨predecessor, listed, owner⟩ := List.mem_map.mp owned
    obtain rfl : predecessor = source'.id := Option.some.inj owner
    obtain ⟨place', source, here, id', leads⟩ := (ready.predecessors_iff (List.mem_of_getElem? at') _).mp listed
    obtain ⟨rfl, rfl⟩ := ready.flow_inj here at_ (id'.trans id.symm)
    have dominated := condition _ _ at_ position' target at' leads field meets
    rw [ready.latestDominates_iff parameters once (.inr (ready.fields field (LlirMethod.mem_merged meets)))] at dominated
    rw [← id, renamed.length]
    exact dominated isLocal

omit once in
/-- A version that a parameter or a definition has is defined once. -/
private theorem LlirMethod.SsaReady.count_of_defined {name : String} (h : LocalName name) {number : Nat}
    (defined : number = 0 ∧ name ∈ method.arguments.map LlirField.identifier ∨ number < method.defined.count name) :
    (transformMethod method).definitions.count (version name number) = 1 := by
  rw [ready.count_definitions h]
  by_cases isArgument : name ∈ method.arguments.map LlirField.identifier
  · obtain ⟨argument, mem, same⟩ := List.mem_map.mp isArgument
    have none : method.defined.count name = 0 := List.count_eq_zero.mpr (same ▸ parameters argument mem)
    rw [none] at defined ⊢
    obtain ⟨rfl, -⟩ | impossible := defined
    · rw [version_zero, List.count_eq_one_of_mem ready.distinct isArgument]
      rfl
    · exact absurd impossible (Nat.not_lt_zero _)
  · have reached := defined.resolve_left fun first => isArgument first.2
    rw [if_pos reached, List.count_eq_zero.mpr fun mem => isArgument ((ready.mem_arguments h number).mp mem).2]

omit once in
private theorem LlirMethod.SsaReady.count_of_definedBefore {name : String} (h : LocalName name) {number : Nat}
    {point : Nat × Nat}
    (defined : (transformMethod method).DefinedBefore (version name number) point) :
    (transformMethod method).definitions.count (version name number) = 1 := by
  refine ready.count_of_defined parameters h (((ready.definedBefore_iff h number point).mp defined).imp_right ?_)
  rintro ⟨position, block, index, line, at_, here, isDefined, rfl, -⟩
  exact count_definedBefore_lt at_ here isDefined

omit ready parameters in
/-- A local scalar in the transformed code stands for a local. -/
private theorem LlirMethod.localName_of_use {field : LlirField}
    (known : field.identifier ∈ globals ∨ LocalName field.identifier)
    {position index : Nat}
    (isLocal : (ssaRenaming.use (definedBefore LlirField.identifier method.flow position index) field).LocalScalar globals) :
    LocalName field.identifier := by
  refine known.resolve_left fun isGlobal => ?_
  have few := ((definedBefore_extends _ position index).sublist.count_le field.identifier).trans (once _ isGlobal)
  have same : ssaRenaming.use (definedBefore LlirField.identifier method.flow position index) field = field := if_pos few
  rw [same] at isLocal
  exact isLocal.2 isGlobal

/-- A local that is mentioned is defined once. -/
private theorem LlirMethod.SsaReady.once_of_mentioned
    (uses : ∀ block ∈ (transformMethod method).blocks, ∀ (index : Nat) (fields : List LlirField),
      block.flow.uses[index]? = some fields → ∀ field ∈ fields, field.LocalScalar globals →
        (transformMethod method).DefinedBefore field.identifier (block.id, index))
    (phis : ∀ block ∈ (transformMethod method).blocks, ∀ destination slots, .phi destination slots ∈ block.assignments →
      ∀ field, ∀ source ∈ (transformMethod method).blocks, (.field field, some source.id) ∈ slots →
        field.LocalScalar globals →
          (transformMethod method).DefinedBefore field.identifier (source.id, source.assignments.length))
    {field' : LlirField} (mentions : (transformMethod method).Mentions field') (isLocal : field'.LocalScalar globals) :
    (transformMethod method).definitions.count field'.identifier = 1 := by
  cases mentions with
  | argument mem =>
    have isArgument := List.mem_map_of_mem (f := LlirField.identifier) mem
    have count := ready.count_of_defined parameters (ready.argument isArgument) (.inl ⟨rfl, isArgument⟩)
    rwa [version_zero] at count
  | @definition block assignment mem inside defined =>
    obtain ⟨position, at'⟩ := List.mem_iff_getElem?.mp mem
    obtain ⟨original, at_, renamed⟩ := transformMethod_block at'
    obtain ⟨index, here⟩ := List.mem_iff_getElem?.mp (List.mem_map_of_mem (f := SsaAssignment.line) inside)
    rw [renamed.lines, Renaming.renameLines_getElem?] at here
    obtain ⟨line, listed, same⟩ := Option.map_eq_some_iff.mp here
    have reached {field : LlirField} (isDefined : line.1 = some field) :=
      @count_definedBefore_lt _ _ LlirField.identifier _ _ _ _ at_ _ _ listed field.identifier
        (congrArg (Option.map LlirField.identifier) isDefined)
    rw [definedBefore_eq at_] at reached
    rw [← same] at defined
    obtain ⟨field, isDefined, rfl⟩ := Option.map_eq_some_iff.mp defined
    have h : LocalName field.identifier := by
      refine (ready.definitions original (List.mem_of_getElem? at_) line (List.mem_of_getElem? listed) field
        isDefined).resolve_left fun isGlobal => isLocal.2 ?_
      have first := Nat.lt_one_iff.mp ((reached isDefined).trans_le (once _ isGlobal))
      exact (congrArg LlirField.identifier (if_pos first)).symm ▸ isGlobal
    rw [define_identifier]
    exact ready.count_of_defined parameters h (.inr (reached isDefined))
  | @use block fields' mem listed' used' =>
    obtain ⟨position, at'⟩ := List.mem_iff_getElem?.mp mem
    obtain ⟨original, at_, renamed⟩ := transformMethod_block at'
    obtain ⟨index, place⟩ := List.mem_iff_getElem?.mp listed'
    obtain ⟨fields, listed, rfl⟩ := Option.map_eq_some_iff.mp ((renamed.uses index).symm.trans place)
    obtain ⟨field, used, rfl⟩ := List.mem_map.mp used'
    have known := ready.uses original (List.mem_of_getElem? at_) fields (List.mem_of_getElem? listed) field used
    have h := LlirMethod.localName_of_use once known isLocal
    have defined := uses block mem index _ place _ used' isLocal
    rw [use_identifier] at defined ⊢
    exact ready.count_of_definedBefore parameters h defined
  | @phi block destination slots owner mem inside slot =>
    obtain ⟨position', target, field, at', meets, right, filled⟩ := ready.merged_of_phi mem inside
    obtain ⟨predecessor, listed, rfl⟩ := List.mem_map.mp (filled.mem_iff.mp (List.mem_map_of_mem slot))
    obtain ⟨position, source, -, at_, rfl, same⟩ := right.owned _ _ slot
    obtain rfl := LlirOperand.field.inj same
    obtain ⟨source', place', renamed⟩ := transformMethod_block' at_
    have defined := phis block mem destination slots inside _ source' (List.mem_of_getElem? place') (renamed.id.symm ▸ slot) isLocal
    rw [use_identifier] at defined ⊢
    exact ready.count_of_definedBefore parameters (ready.fields field (LlirMethod.mem_merged meets)) defined

end

/-- The transform brings a method into the form and renames no global exactly under the condition. -/
private theorem transformMethod_iff {globals : List String} {method : LlirMethod} (ready : method.SsaReady globals) :
    (transformMethod method).InSsaForm globals ∧ KeepsGlobals globals method (transformMethod method) ↔
      method.LatestDominate globals := by
  have phis : ∀ block ∈ method.placed, ∀ destination slots, .phi destination slots ∈ block.assignments →
      destination.identifier ∉ globals := by
    intro block mem destination slots phi
    obtain ⟨position, at_⟩ := List.mem_iff_getElem?.mp mem
    rw [method.placed_getElem?] at at_
    obtain ⟨original, -, rfl⟩ := Option.map_eq_some_iff.mp at_
    obtain merged | plain := List.mem_append.mp phi
    · obtain ⟨field, meets, same⟩ := List.mem_map.mp merged
      obtain ⟨rfl, -⟩ := SsaAssignment.phi.inj same
      exact version_zero field.identifier ▸ ready.not_global (ready.fields field (LlirMethod.mem_merged meets)) 0
    · obtain ⟨assignment, -, same⟩ := List.mem_map.mp plain
      cases same
  rw [keepsGlobals_iff phis]
  constructor
  · rintro ⟨form, once⟩
    have parameters : ∀ argument ∈ method.arguments, argument.identifier ∉ method.defined := by
      intro argument mem defined
      have h := ready.fields argument (List.mem_append_left _ mem)
      have count := ready.count_definitions h 0
      rw [version_zero, if_pos (List.count_pos_iff.mpr defined),
        form.once argument (.argument mem) ⟨ready.scalars argument mem, version_zero argument.identifier ▸ ready.not_global h 0⟩] at count
      have := List.count_pos_iff.mpr (List.mem_map_of_mem (f := LlirField.identifier) mem)
      omega
    exact ⟨parameters, once, (ready.uses_iff parameters once).mp form.uses, (ready.phis_iff parameters once).mp form.phis⟩
  · intro condition
    have uses := (ready.uses_iff condition.parameters condition.once).mpr condition.uses
    have phis := (ready.phis_iff condition.parameters condition.once).mpr condition.meets
    exact ⟨⟨fun field mentions isLocal => ready.once_of_mentioned condition.parameters condition.once uses phis mentions isLocal,
      uses, phis⟩, condition.once⟩

private theorem LlirOperand.Resolved.mem_fields {known : List LlirField} {operand : LlirOperand}
    (h : operand.Resolved known)
    {field : LlirField} (mem : field ∈ operand.fields) : field ∈ known := by
  cases operand with
  | field named => exact List.mem_singleton.mp mem ▸ h
  | literal literal => cases mem
  | string string => cases mem

/-- What lines of resolved code name is known. -/
theorem LlirAssignment.Resolved.line {names : List String} {known : List LlirField} {assignment : LlirAssignment}
    (h : assignment.Resolved names known) :
    (∀ field ∈ assignment.defined, field ∈ known) ∧ ∀ field ∈ assignment.line.2, field ∈ known := by
  have listed {operands : List LlirOperand} (each : ∀ operand ∈ operands, operand.Resolved known) :
      ∀ field ∈ operands.flatMap LlirOperand.fields, field ∈ known := by
    intro field mem
    obtain ⟨operand, inside, named⟩ := List.mem_flatMap.mp mem
    exact (each operand inside).mem_fields named
  cases assignment with
  | unary type source destination =>
    refine ⟨fun field mem => Option.some.inj mem ▸ h.2, listed ?_⟩
    simpa [LlirAssignment.operands] using h.1
  | binary type left right destination =>
    refine ⟨fun field mem => Option.some.inj mem ▸ h.2.2, listed ?_⟩
    simpa [LlirAssignment.operands] using ⟨h.1, h.2.1⟩
  | arrayUpdate index value destination =>
    refine ⟨fun field mem => (by cases mem), listed ?_⟩
    simpa [LlirAssignment.operands] using ⟨h.1, h.2.1⟩
  | arrayAccess index array destination guarded =>
    refine ⟨fun field mem => Option.some.inj mem ▸ h.2.2, listed ?_⟩
    simpa [LlirAssignment.operands] using h.1
  | methodCall method arguments destination =>
    refine ⟨fun field mem => Option.some.inj mem ▸ h.2.2, fun field mem => ?_⟩
    obtain ⟨argument, inside, named⟩ := List.mem_flatMap.mp mem
    obtain resolved | ⟨string, rfl⟩ := h.2.1 argument inside
    · exact resolved.mem_fields named
    · cases named

theorem LlirTerminal.Resolved.mem {known : List LlirField} {terminal : LlirTerminal} (h : terminal.Resolved known) :
    ∀ field ∈ terminal.operands.flatMap LlirOperand.fields, field ∈ known := by
  intro field mem
  obtain ⟨operand, inside, named⟩ := List.mem_flatMap.mp mem
  refine LlirOperand.Resolved.mem_fields ?_ named
  cases terminal with
  | branch terminal =>
    simp only [LlirTerminal.operands, List.mem_cons, List.not_mem_nil, or_false] at inside
    obtain rfl | rfl := inside
    · exact h.1
    · exact h.2
  | llirReturn source => exact List.mem_singleton.mp inside ▸ h
  | _ => cases inside

/-- The methods of a lowered program are ready for the transform. -/
theorem accepts_ssaReady {program analyzed : IrProgram} (source : program.FromSource) (accepted : Accepts program analyzed)
    {llir : Llir} (generated : llirGeneratorGenerateLlir analyzed = some llir) {lowered : LlirMethod}
    (mem : lowered ∈ llir.methods) : lowered.SsaReady (llir.fields.map LlirField.identifier) := by
  have ready := accepts_ready source accepted
  have globals := ready.lowered generated
  have listed : lowered.identifier ∈ analyzed.methods.map IrMethod.identifier := globals.methods ▸ List.mem_map_of_mem mem
  obtain ⟨method, methodMem, same⟩ := List.mem_map.mp listed
  obtain ⟨g, c, site, found, -⟩ := ready.site generated methodMem
  have name : (generateMethod g method).1.identifier = method.identifier := rfl
  obtain rfl : lowered = (generateMethod g method).1 :=
    List.inj_on_of_nodup_map (ready.methods_distinct generated) mem (List.mem_of_find?_eq_some found)
      (same.symm.trans name.symm)
  obtain ⟨declared, -⟩ := generateMethod_fields site.matchesScopes site.typed
  obtain ⟨arguments, readyArguments⟩ := generateMethod_arguments site.matchesScopes site.typed
  have levels := block_declarations method.block site.typed 1
  rw [site.scopes, List.length_singleton] at declared arguments
  have parameters : (generateMethod g method).1.arguments = method.arguments.map (IrField.llirField 1) := arguments
  have fields : ∀ field ∈ (generateMethod g method).1.fields, LocalName field.identifier := by
    intro field inside
    obtain inside | inside := List.mem_append.mp inside
    · rw [parameters] at inside
      obtain ⟨argument, argumentMem, rfl⟩ := List.mem_map.mp inside
      exact .inr ⟨argument.identifier, (readyArguments argument argumentMem).identifier, 1, llirField_identifier Nat.one_pos argument⟩
    · obtain temporary | ⟨entry, entryMem, rfl⟩ := declared field inside
      · exact .inl temporary.2
      · obtain ⟨positive, entryReady⟩ := levels entry entryMem
        exact .inr ⟨entry.1.identifier, entryReady.identifier, entry.2, llirField_identifier positive entry.1⟩
  have distinct : (method.arguments.map IrField.identifier).Nodup := by
    have typed := site.typed
    cases block : method.block with
    | mk declarations statements =>
      rw [block] at typed
      cases typed with
      | mk scope typed =>
        have both := scope.distinct
        rw [List.map_append, List.nodup_append] at both
        exact both.1
  obtain ⟨rfl, succeeds⟩ := llirGeneratorGenerateLlir_eq generated
  have wellFormed := ready.wellFormed
  have resolved := ready.resolved succeeds _ mem
  have known (field : LlirField) (inside : field ∈ (generateLlir analyzed).1.fields ++ (generateMethod g method).1.fields) :
      field.identifier ∈ (generateLlir analyzed).1.fields.map LlirField.identifier ∨ LocalName field.identifier :=
    (List.mem_append.mp inside).imp List.mem_map_of_mem (fields field)
  have blocks {block : FlowBlock LlirField} (inside : block ∈ (generateMethod g method).1.flow) :
      ∃ position original, original ∈ (generateMethod g method).1.blocks ∧
        block = (generateMethod g method).1.flowBlock position original := by
    obtain ⟨position, at_⟩ := List.mem_iff_getElem?.mp inside
    rw [LlirMethod.flow, List.getElem?_mapIdx] at at_
    obtain ⟨original, here, rfl⟩ := Option.map_eq_some_iff.mp at_
    exact ⟨position, original, List.mem_of_getElem? here, rfl⟩
  constructor
  · intro name isGlobal
    obtain ⟨field, inside, rfl⟩ := List.mem_map.mp isGlobal
    exact globals.named.identifiers field inside
  · exact fields
  · intro block inside line here field defined
    obtain ⟨position, original, originalMem, rfl⟩ := blocks inside
    obtain meets | plain := List.mem_append.mp here
    · obtain ⟨met, metMem, rfl⟩ := List.mem_map.mp meets
      obtain rfl : met = field := Option.some.inj defined
      exact .inr (fields met (LlirMethod.mem_merged metMem))
    · obtain ⟨assignment, assignmentMem, rfl⟩ := List.mem_map.mp plain
      exact known field ((resolved.assignments original originalMem assignment assignmentMem).1.line.1 field defined)
  · intro block inside used usedMem field here
    obtain ⟨position, original, originalMem, rfl⟩ := blocks inside
    obtain lines | final := List.mem_append.mp usedMem
    · obtain ⟨line, lineMem, rfl⟩ := List.mem_map.mp lines
      obtain meets | plain := List.mem_append.mp lineMem
      · obtain ⟨met, metMem, rfl⟩ := List.mem_map.mp meets
        cases here
      · obtain ⟨assignment, assignmentMem, rfl⟩ := List.mem_map.mp plain
        exact known field ((resolved.assignments original originalMem assignment assignmentMem).1.line.2 field here)
    · obtain rfl := List.mem_singleton.mp final
      exact known field ((resolved.terminals original originalMem).mem field here)
  · intro argument inside
    rw [parameters] at inside
    obtain ⟨original, originalMem, rfl⟩ := List.mem_map.mp inside
    exact (ready.arguments method methodMem original originalMem).1
  · rw [parameters, List.map_map]
    refine List.Nodup.map_on (fun field inside field' inside' equal => ?_) distinct.of_map
    have names := (llirField_identifier_inj Nat.one_pos Nat.one_pos (readyArguments field inside).identifier
      (readyArguments field' inside').identifier equal).2
    exact List.inj_on_of_nodup_map distinct inside inside' names
  · exact wellFormed.methods _ mem
  · have made : ((generateLlir analyzed).1.methods.flatMap fun method => method.blocks.map LlirBlock.id).Nodup :=
      wellFormed.made.nodup_iff.mpr List.nodup_range
    exact (List.nodup_flatMap.mp made).1 _ mem

/-- `ssa_transform` brings a method of a lowered program into static single assignment form, and keeps its globals, exactly if
the method reassigns no parameter and no global twice and the latest definition in the order of its blocks dominates every use
and every edge into a block where the variable meets. -/
theorem accepts_ssaTransform_iff {program analyzed : IrProgram} (source : program.FromSource)
    (accepted : Accepts program analyzed) {llir : Llir} (generated : llirGeneratorGenerateLlir analyzed = some llir)
    {method : LlirMethod} (mem : method ∈ llir.methods) :
    ∃ method' ∈ (ssaTransform llir).methods, method'.identifier = method.identifier ∧
      (method'.InSsaForm (llir.fields.map LlirField.identifier) ∧
          KeepsGlobals (llir.fields.map LlirField.identifier) method method' ↔
        method.LatestDominate (llir.fields.map LlirField.identifier)) :=
  ⟨transformMethod method, List.mem_map_of_mem mem, rfl, transformMethod_iff (accepts_ssaReady source accepted generated mem)⟩

/-- The latest definition before a point stands in the block of the point. -/
def LlirMethod.DefinesHere (method : LlirMethod) (position : Nat) (block : FlowBlock LlirField) (index : Nat)
    (field : LlirField) : Prop :=
  ∃ index' < index, ∃ line ∈ block.lines[index']?, line.1.map LlirField.identifier = some field.identifier ∧
    (definedBefore LlirField.identifier method.flow position index').count field.identifier =
      (definedBefore LlirField.identifier method.flow position index).count field.identifier - 1

instance (method : LlirMethod) (position : Nat) (block : FlowBlock LlirField) (index : Nat) (field : LlirField) :
    Decidable (method.DefinesHere position block index field) := by
  unfold LlirMethod.DefinesHere
  infer_instance

private theorem LlirMethod.DefinesHere.latestDominates {globals : List String} {method : LlirMethod}
    {position index : Nat}
    {block : FlowBlock LlirField} {field : LlirField} (defines : method.DefinesHere position block index field)
    (here : method.flow[position]? = some block) :
    method.LatestDominates globals field position index (block.id, index) := by
  obtain ⟨index', before, line, listed, defines, latest⟩ := defines
  exact fun _ _ => .inr ⟨position, block, index', line, here, listed, defines, latest, dominates_same before⟩

/-- `void f(int a) { a = 1; } void main() { int x; x = 1; if (x > 0) { x = 2; } x += 1; }` -/
def assignedParameter : IrProgram where
  imports := []
  fields := []
  methods := [
    { imported := false, returnType := .void, identifier := "f", arguments := [field 0 "a"]
      block := .mk [] (.cons (.assignment ⟨.scalar 1 "a", .set, some (.literal one)⟩) .nil) },
    { imported := false, returnType := .void, identifier := "main", arguments := []
      block := .mk [field 2 "x"] (.cons (.assignment ⟨.scalar 3 "x", .set, some (.literal one)⟩)
        (.cons (.ifStatement (.binary .greater (.location (.scalar 4 "x")) (.literal one))
          (.mk [] (.cons (.assignment ⟨.scalar 5 "x", .set, some (.literal one)⟩) .nil)))
        (.cons (.assignment ⟨.scalar 6 "x", .add, some (.literal one)⟩) .nil))) }]
where
  field (node : Nat) (identifier : String) : IrField :=
    { node := node, type := .int, constant := false, identifier := identifier, arrayLength := 1, lengthToken := none,
      initializer := none }
  one : IrLiteral := { negate := false, type := .int, value := 1, token := some ⟨false, ['1']⟩ }

def assignedParameterLlir : Llir := (generateLlir (semanticsAnalyze assignedParameter).2).1

def assignedParameterMethod : LlirMethod := assignedParameterLlir.methods.get ⟨0, by decide +kernel⟩

def joinedVariableMethod : LlirMethod := assignedParameterLlir.methods.get ⟨1, by decide +kernel⟩

private theorem assignedParameter_generated :
    assignedParameter.FromSource ∧ (semanticsAnalyze assignedParameter).1 = 0 ∧
    llirGeneratorGenerateLlir (semanticsAnalyze assignedParameter).2 = some assignedParameterLlir ∧
    assignedParameterMethod.identifier = "f" ∧ joinedVariableMethod.identifier = "main" ∧
    ¬ ∀ argument ∈ assignedParameterMethod.arguments, argument.identifier ∉ assignedParameterMethod.defined := by
  decide +kernel

/-- Each use in `main` is behind a definition of its own block; those of `x` meet behind the branch. -/
private theorem joinedVariableMethod_latestDominate :
    joinedVariableMethod.LatestDominate (assignedParameterLlir.fields.map LlirField.identifier) where
  parameters := by decide +kernel
  once := by decide +kernel
  uses position block here index fields listed field mem := by
    have all : ∀ position < joinedVariableMethod.flow.length, ∀ block ∈ joinedVariableMethod.flow[position]?,
        ∀ index < block.uses.length, ∀ fields ∈ block.uses[index]?, ∀ field ∈ fields,
          joinedVariableMethod.DefinesHere position block index field := by
      decide +kernel
    exact (all position (List.getElem?_eq_some_iff.mp here).1 block here index (List.getElem?_eq_some_iff.mp listed).1 fields
      listed field mem).latestDominates here
  meets position source here position' target there leads field mem := by
    have all : ∀ position < joinedVariableMethod.flow.length, ∀ source ∈ joinedVariableMethod.flow[position]?,
        ∀ position' < joinedVariableMethod.blocks.length, ∀ target ∈ joinedVariableMethod.blocks[position']?,
          target.id ∈ source.successors → ∀ field ∈ joinedVariableMethod.merged position' target,
            joinedVariableMethod.DefinesHere position source source.lines.length field := by
      decide +kernel
    exact (all position (List.getElem?_eq_some_iff.mp here).1 source here position' (List.getElem?_eq_some_iff.mp there).1
      target there leads field mem).latestDominates here

/-- In `f` the parameter is defined at entry and by the assignment, which keeps its name. The versions of `x` in `main` are
told apart. -/
theorem accepts_ssaTransform_iff_assignedParameter :
    (∃ method' ∈ (ssaTransform assignedParameterLlir).methods, method'.identifier = "f" ∧
      ¬ (method'.InSsaForm (assignedParameterLlir.fields.map LlirField.identifier) ∧
        KeepsGlobals (assignedParameterLlir.fields.map LlirField.identifier) assignedParameterMethod method')) ∧
    ∃ method' ∈ (ssaTransform assignedParameterLlir).methods, method'.identifier = "main" ∧
      method'.InSsaForm (assignedParameterLlir.fields.map LlirField.identifier) ∧
        KeepsGlobals (assignedParameterLlir.fields.map LlirField.identifier) joinedVariableMethod method' := by
  obtain ⟨source, accepted, generated, isF, isMain, assigned⟩ := assignedParameter_generated
  have transforms {method : LlirMethod} (mem : method ∈ assignedParameterLlir.methods) :=
    accepts_ssaTransform_iff source (Prod.ext accepted rfl) generated mem
  constructor
  · obtain ⟨method', mem, name, form⟩ := transforms (List.get_mem _ _ : assignedParameterMethod ∈ _)
    exact ⟨method', mem, name.trans isF, fun both => assigned (form.mp both).parameters⟩
  · obtain ⟨method', mem, name, form⟩ := transforms (List.get_mem _ _ : joinedVariableMethod ∈ _)
    exact ⟨method', mem, name.trans isMain, form.mpr joinedVariableMethod_latestDominate⟩

end Roast
