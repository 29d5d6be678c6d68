import Roast.Optimizations.Propagation
import Roast.Optimizations.Sweeps

/-! The copies that propagation finds, as a property of the blocks before the pass: a local stands for another one if all
definitions that reach it copy that one and nothing assigns to it on the way. The pass has rewritten a definition that it comes
to before the use, and sees a later one as it stands. -/
namespace Roast.CopyPropagation
open Systems

mutual

/-- The definition moves a local that stands for the name. -/
inductive Copies (blocks : List LlirBlock) : LlirDefinition → String → Prop where
  | move {block index : Nat} {source destination : LlirField} {name : String}
    (isLocal : llirOperandIsFieldGlobal source = false) (stands : StandsFor blocks (block, index) source name) :
    Copies blocks ⟨block, index, .unary .move (.field source) destination⟩ name

/-- At the turn of the point the definition is a copy of the name. -/
inductive SeenCopy (blocks : List LlirBlock) : Nat × Nat → LlirDefinition → String → Prop where
  | before {point : Nat × Nat} {definition : LlirDefinition} {name : String}
    (precedes : Earlier blocks (definition.block, definition.index) point) (copies : Copies blocks definition name) :
    SeenCopy blocks point definition name
  | later {point : Nat × Nat} {definition : LlirDefinition} {source : LlirField}
    (follows : ¬ Earlier blocks (definition.block, definition.index) point)
    (copied : copiedField definition.assignment = some source) : SeenCopy blocks point definition source.identifier

/-- All definitions of the local that reach the point are copies of the name, to which nothing assigns on the way. -/
inductive CopyAt (blocks : List LlirBlock) : Nat × Nat → LlirField → String → Prop where
  | all {point : Nat × Nat} {field : LlirField} {name : String} (isLocal : llirOperandIsFieldGlobal field = false)
    (reached : ∃ definition : LlirDefinition, definition.ReachesPoint blocks field.identifier point)
    (copies : ∀ definition : LlirDefinition, definition.ReachesPoint blocks field.identifier point →
      SeenCopy blocks point definition name)
    (fresh : ¬ Mutated blocks field.identifier name point) : CopyAt blocks point field name

/-- What a use of the local stands for: the name that it copies, or itself where it copies none. -/
inductive StandsFor (blocks : List LlirBlock) : Nat × Nat → LlirField → String → Prop where
  | copy {point : Nat × Nat} {field : LlirField} {name : String} (copy : CopyAt blocks point field name) :
    StandsFor blocks point field name
  | undefined {point : Nat × Nat} {field : LlirField}
    (none : ∀ definition : LlirDefinition, ¬ definition.ReachesPoint blocks field.identifier point) :
    StandsFor blocks point field field.identifier
  | computed {point : Nat × Nat} {field : LlirField} {definition : LlirDefinition}
    (reaches : definition.ReachesPoint blocks field.identifier point)
    (computed : copiedField definition.assignment = none) : StandsFor blocks point field field.identifier
  | differ {point : Nat × Nat} {field : LlirField} {definition definition' : LlirDefinition} {name name' : String}
    (reaches : definition.ReachesPoint blocks field.identifier point)
    (reaches' : definition'.ReachesPoint blocks field.identifier point) (copies : SeenCopy blocks point definition name)
    (copies' : SeenCopy blocks point definition' name') (differ : name ≠ name') :
    StandsFor blocks point field field.identifier
  | mutated {point : Nat × Nat} {field : LlirField} {definition : LlirDefinition} {name : String}
    (reaches : definition.ReachesPoint blocks field.identifier point) (copies : SeenCopy blocks point definition name)
    (mutated : Mutated blocks field.identifier name point) : StandsFor blocks point field field.identifier

end

def NamesCopy (assignment : LlirAssignment) (name : String) : Prop :=
  (copiedField assignment).map LlirField.identifier = some name

structure Propagated (blocks : List LlirBlock) (point : Nat × Nat) (assignment assignment' : LlirAssignment) : Prop where
  shape : copiedField assignment' = none ↔ copiedField assignment = none
  names : ∀ name, NamesCopy assignment' name ↔ Copies blocks ⟨point.1, point.2, assignment⟩ name

/-- A copy is propagated if all definitions copy the field and it is not changed on the way. -/
private theorem canPropagateCopy_iff {definitions : List LlirAssignment} {mutated : List String} {name : String} :
    (canPropagateCopy definitions mutated).map LlirField.identifier = some name ↔
      definitions ≠ [] ∧ (∀ definition ∈ definitions, NamesCopy definition name) ∧ name ∉ mutated := by
  cases definitions with
  | nil => simp [canPropagateCopy]
  | cons first rest =>
    rw [canPropagateCopy, List.forall_mem_cons]
    cases copied : copiedField first with
    | none => simp [NamesCopy, copied]
    | some field =>
      have others : (rest.all fun definition => (copiedField definition).any fun other =>
          field.identifier == other.identifier) = true ↔ ∀ definition ∈ rest, NamesCopy definition field.identifier := by
        rw [List.all_eq_true]
        refine forall₂_congr fun definition _ => ?_
        cases other : copiedField definition with
        | none => simp [NamesCopy, other]
        | some field' => simpa [NamesCopy, other] using eq_comm
      rw [Option.filter_some, NamesCopy, copied, Option.map_some]
      constructor
      · intro propagated
        split_ifs at propagated with checks
        · obtain rfl := Option.some.inj propagated
          rw [Bool.and_eq_true, others] at checks
          exact ⟨List.cons_ne_nil _ _, ⟨rfl, checks.1⟩, by simpa using checks.2⟩
        · cases propagated
      · rintro ⟨-, ⟨named, all⟩, fresh⟩
        obtain rfl := Option.some.inj named
        rw [if_pos]
        · rfl
        · rw [Bool.and_eq_true, others]
          exact ⟨all, by simpa using fresh⟩

theorem SeenCopy.copied {blocks : List LlirBlock} {point : Nat × Nat} {definition : LlirDefinition} {name : String}
    (seen : SeenCopy blocks point definition name) : copiedField definition.assignment ≠ none := by
  cases seen with
  | later _ copied => exact copied ▸ Option.some_ne_none _
  | before _ copies =>
    cases copies with
    | move isLocal _ => simp [copiedField, isLocal]

structure SeenAs (blocks : List LlirBlock) (point : Nat × Nat) (definition : LlirDefinition) (assignment : LlirAssignment) :
    Prop where
  shape : copiedField assignment = none ↔ copiedField definition.assignment = none
  names : ∀ name, NamesCopy assignment name ↔ SeenCopy blocks point definition name

private theorem seenAs_of_swept {blocks : List LlirBlock} {point : Nat × Nat} {definition : LlirDefinition}
    {assignment : LlirAssignment} (swept : definition.SweptAs blocks (Propagated blocks) point assignment) :
    SeenAs blocks point definition assignment := by
  obtain ⟨before, later⟩ := swept
  by_cases precedes : Earlier blocks (definition.block, definition.index) point
  · obtain ⟨shape, names⟩ := before precedes
    refine ⟨shape, fun name => (names name).trans ⟨.before precedes, fun seen => ?_⟩⟩
    cases seen with
    | before _ copies => exact copies
    | later follows _ => exact absurd precedes follows
  · obtain rfl := later precedes
    refine ⟨Iff.rfl, fun name => ⟨fun named => ?_, fun seen => ?_⟩⟩
    · obtain ⟨source, copied, rfl⟩ := Option.map_eq_some_iff.mp named
      exact .later precedes copied
    · cases seen with
      | before precedes' _ => exact absurd precedes' precedes
      | later _ copied => exact congrArg (Option.map LlirField.identifier) copied

/-- What the search for a local at the point has found on the blocks of the moment, told of the blocks before the pass. -/
structure SeenDefinitions (blocks : List LlirBlock) (point : Nat × Nat) (identifier : String)
    (definitions : List LlirAssignment) (mutated : List String) : Prop where
  known : ∀ definition : LlirDefinition, definition.ReachesPoint blocks identifier point →
    ∃ assignment ∈ definitions, SeenAs blocks point definition assignment
  listed : ∀ assignment ∈ definitions, ∃ definition : LlirDefinition,
    definition.ReachesPoint blocks identifier point ∧ SeenAs blocks point definition assignment
  mutated : ∀ name, name ∈ mutated ↔ Mutated blocks identifier name point

namespace SeenDefinitions
variable {blocks : List LlirBlock} {point : Nat × Nat} {field : LlirField} {definitions : List LlirAssignment}
  {mutated : List String} (seen : SeenDefinitions blocks point field.identifier definitions mutated)
include seen

private theorem copyAt_iff (isLocal : llirOperandIsFieldGlobal field = false) (name : String) :
    (canPropagateCopy definitions mutated).map LlirField.identifier = some name ↔ CopyAt blocks point field name := by
  rw [canPropagateCopy_iff, seen.mutated, ne_eq]
  constructor
  · rintro ⟨some, all, fresh⟩
    refine .all isLocal ?_ (fun definition reaches => ?_) fresh
    · obtain ⟨assignment, mem⟩ := List.exists_mem_of_ne_nil _ some
      obtain ⟨definition, reaches, -⟩ := seen.listed assignment mem
      exact ⟨definition, reaches⟩
    · obtain ⟨assignment, mem, same⟩ := seen.known definition reaches
      exact (same.names name).mp (all assignment mem)
  · rintro ⟨-, ⟨definition, reaches⟩, copies, fresh⟩
    refine ⟨?_, fun assignment mem => ?_, fresh⟩
    · obtain ⟨assignment, mem, -⟩ := seen.known definition reaches
      exact List.ne_nil_of_mem mem
    · obtain ⟨definition, reaches, same⟩ := seen.listed assignment mem
      exact (same.names name).mpr (copies definition reaches)

/-- A definition copies one name at most. -/
private theorem name_unique {definition : LlirDefinition}
    (reaches : definition.ReachesPoint blocks field.identifier point) {name name' : String}
    (copies : SeenCopy blocks point definition name) (copies' : SeenCopy blocks point definition name') :
    name = name' := by
  obtain ⟨assignment, -, same⟩ := seen.known definition reaches
  exact Option.some.inj (((same.names name).mpr copies).symm.trans ((same.names name').mpr copies'))

/-- Where nothing is propagated, a definition, or what stands between the definitions and the use, is the reason. -/
private theorem standsFor_self (nothing : canPropagateCopy definitions mutated = none) :
    StandsFor blocks point field field.identifier := by
  cases definitions with
  | nil =>
    refine .undefined fun definition reaches => ?_
    obtain ⟨_, mem, -⟩ := seen.known definition reaches
    cases mem
  | cons first rest =>
    obtain ⟨definition, reaches, same⟩ := seen.listed first List.mem_cons_self
    cases copied : copiedField first with
    | none => exact .computed reaches (same.shape.mp copied)
    | some source =>
      have named : NamesCopy first source.identifier := congrArg (Option.map LlirField.identifier) copied
      by_cases all : ∀ other ∈ first :: rest, NamesCopy other source.identifier
      · refine .mutated reaches ((same.names _).mp named) (not_not.mp fun fresh => ?_)
        have propagated : (canPropagateCopy (first :: rest) mutated).map LlirField.identifier =
            some source.identifier := canPropagateCopy_iff.mpr
          ⟨List.cons_ne_nil _ _, all, fun mem => fresh ((seen.mutated _).mp mem)⟩
        rw [nothing] at propagated
        cases propagated
      · obtain ⟨other, mem, differs⟩ := not_forall₂.mp all
        obtain ⟨definition', reaches', same'⟩ := seen.listed other mem
        cases copied' : copiedField other with
        | none => exact .computed reaches' (same'.shape.mp copied')
        | some source' =>
          have named' : NamesCopy other source'.identifier := congrArg (Option.map LlirField.identifier) copied'
          refine .differ reaches reaches' ((same.names _).mp named) ((same'.names _).mp named') fun equal => ?_
          exact differs (equal ▸ named')

/-- Whatever else a local stands for than a copy keeps it from being one. -/
private theorem copyAt_or_self {name : String} (stands : StandsFor blocks point field name) :
    CopyAt blocks point field name ∨ name = field.identifier ∧ ∀ name', ¬ CopyAt blocks point field name' := by
  cases stands with
  | copy copy => exact .inl copy
  | undefined none =>
    refine .inr ⟨rfl, ?_⟩
    rintro name' ⟨-, ⟨definition, reaches⟩, -, -⟩
    exact none definition reaches
  | computed reaches computed =>
    refine .inr ⟨rfl, ?_⟩
    rintro name' ⟨-, -, copies, -⟩
    exact (copies _ reaches).copied computed
  | differ reaches reaches' copies copies' differ =>
    refine .inr ⟨rfl, ?_⟩
    rintro name' ⟨-, -, all, -⟩
    refine differ ?_
    exact (seen.name_unique reaches copies (all _ reaches)).trans (seen.name_unique reaches' (all _ reaches') copies')
  | mutated reaches copies mutated =>
    refine .inr ⟨rfl, ?_⟩
    rintro name' ⟨-, -, all, fresh⟩
    exact fresh (seen.name_unique reaches copies (all _ reaches) ▸ mutated)

private theorem standsFor_iff (isLocal : llirOperandIsFieldGlobal field = false) (name : String) :
    ((canPropagateCopy definitions mutated).getD field).identifier = name ↔ StandsFor blocks point field name := by
  constructor
  · rintro rfl
    cases propagated : canPropagateCopy definitions mutated with
    | none => exact seen.standsFor_self propagated
    | some copy =>
      exact .copy ((seen.copyAt_iff isLocal _).mp (congrArg (Option.map LlirField.identifier) propagated))
  · intro stands
    rcases seen.copyAt_or_self stands with copy | ⟨rfl, none⟩
    · obtain ⟨copied, propagated, rfl⟩ := Option.map_eq_some_iff.mp ((seen.copyAt_iff isLocal name).mpr copy)
      rw [propagated]
      rfl
    · cases propagated : canPropagateCopy definitions mutated with
      | none => rfl
      | some copy =>
        have named := congrArg (Option.map LlirField.identifier) propagated
        exact absurd ((seen.copyAt_iff isLocal _).mp named) (none copy.identifier)

end SeenDefinitions

section
variable {method : LlirMethod} {n : Nat} (cfg : WellFormedCfg method.blocks) (short : ShortBlocks method.blocks)

section
variable {done rest : List FoldStep} {step : FoldStep} (split : method.foldSteps = done ++ step :: rest)
  {blocks : List LlirBlock} (swept : method.Swept (Propagated method.blocks) done blocks) {block : LlirBlock} {index : Nat}
  {operands : List LlirOperand} (visit : step.visit blocks = some (block, index, operands))
include cfg split swept visit short

/-- The search of the pass tells of the definitions in the method before the pass. -/
private theorem findDefinitions_seen (enough : (predecessorIds blocks).length < n) (identifier : String) :
    ∃ definitions mutated, findDefinitions blocks identifier n block index = some (definitions, mutated) ∧
      SeenDefinitions method.blocks (block.id, index) identifier (definitions.map LlirDefinition.assignment) mutated := by
  obtain ⟨_, _, _, here, _, _, inside, _⟩ := swept.visit split visit
  obtain ⟨definitions, mutated, -, found, -, exactly, passed⟩ :=
    findDefinitions_spec (cfg.of_edges (edges_of_skeletons swept.skeletons)) (short.of_skeletons swept.skeletons)
      (List.mem_of_getElem? here) inside identifier enough
  refine ⟨_, _, found, fun definition reaches => ?_, fun assignment mem => ?_, fun name => (passed name).trans
    ⟨Mutated.of_skeletons swept.skeletons.symm, Mutated.of_skeletons swept.skeletons⟩⟩
  · obtain ⟨definition', current, seen⟩ := swept.exists_current split cfg.distinct visit reaches
    exact ⟨_, List.mem_map_of_mem ((exactly definition').mpr current), seenAs_of_swept seen⟩
  · obtain ⟨definition', listed, rfl⟩ := List.mem_map.mp mem
    obtain ⟨definition, reaches, seen⟩ :=
      swept.exists_original split cfg.distinct visit ((exactly definition').mp listed)
    exact ⟨definition, reaches, seenAs_of_swept seen⟩

/-- When the pass comes to a local, it replaces it by the field that it copies there, and so by the one that it stands for. -/
theorem optimizeOperand_spec (enough : (predecessorIds blocks).length < n) {field : LlirField}
    (isLocal : llirOperandIsFieldGlobal field = false) : ∃ result : Option LlirField,
    optimizeOperand n blocks block index (.field field) = some (result.elim (.field field) .field) ∧
      (∀ copy ∈ result, llirOperandIsFieldGlobal copy = false) ∧
      (∀ name, result.map LlirField.identifier = some name ↔ CopyAt method.blocks (block.id, index) field name) ∧
      ∀ name, (result.getD field).identifier = name ↔ StandsFor method.blocks (block.id, index) field name := by
  obtain ⟨definitions, mutated, found, seen⟩ := findDefinitions_seen cfg short split swept visit enough field.identifier
  refine ⟨_, ?_, ?_, seen.copyAt_iff isLocal, seen.standsFor_iff isLocal⟩
  · rw [optimizeOperand, if_neg (Bool.eq_false_iff.mp isLocal), found]
    rfl
  · exact fun copy propagated => (canPropagateCopy_eq_some propagated).2.1

end

/-- Neither assignment moves a local. -/
private theorem propagated_computed {blocks : List LlirBlock} {point : Nat × Nat} {assignment assignment' : LlirAssignment}
    (before : copiedField assignment = none) (after : copiedField assignment' = none) :
    Propagated blocks point assignment assignment' := by
  refine ⟨by rw [before, after], fun name => ⟨fun named => ?_, fun copies => ?_⟩⟩
  · rw [NamesCopy, after] at named
    cases named
  · cases copies with
    | move isLocal _ => simp [copiedField, isLocal] at before

/-- A move of a local becomes a move of the field that the local stands for. -/
private theorem propagated_move {blocks : List LlirBlock} {point : Nat × Nat} {field field' destination : LlirField}
    (isLocal : llirOperandIsFieldGlobal field = false) (isLocal' : llirOperandIsFieldGlobal field' = false)
    (stands : ∀ name, field'.identifier = name ↔ StandsFor blocks point field name) :
    Propagated blocks point (.unary .move (.field field) destination) (.unary .move (.field field') destination) := by
  refine ⟨by simp [copiedField, isLocal, isLocal'], fun name => ?_⟩
  rw [NamesCopy, copiedField, if_neg (Bool.eq_false_iff.mp isLocal'), Option.map_some, Option.some_inj, stands]
  constructor
  · exact fun stands => .move isLocal stands
  · intro copies
    cases copies with
    | move _ stands => exact stands

include cfg short

/-- What the propagation makes of an assignment copies what the definition does. -/
private theorem optimizeAssignment_propagated {done rest : List FoldStep} {blocks : List LlirBlock}
    {position index : Nat}
    (split : method.foldSteps = done ++ .assignment position index :: rest)
    (swept : method.Swept (Propagated method.blocks) done blocks) (enough : (predecessorIds blocks).length < n)
    {block : LlirBlock} (here : blocks[position]? = some block) {assignment assignment' : LlirAssignment}
    (listed : block.assignments[index]? = some assignment)
    (optimized : optimizeAssignment n blocks block index assignment = some assignment') :
    Propagated method.blocks (block.id, index) assignment assignment' := by
  have visit : FoldStep.visit blocks (.assignment position index) = some (block, index, assignment.operands) := by
    simp [FoldStep.visit, here, listed]
  cases assignment with
  | unary type source destination =>
    obtain ⟨source', found, optimized⟩ := Option.bind_eq_some_iff.mp optimized
    obtain rfl := Option.some.inj optimized
    cases source with
    | literal | string =>
      obtain rfl := Option.some.inj found
      exact propagated_computed (by cases type <;> rfl) (by cases type <;> rfl)
    | field field =>
      cases isGlobal : llirOperandIsFieldGlobal field with
      | true =>
        rw [optimizeOperand, if_pos isGlobal] at found
        obtain rfl := Option.some.inj found
        exact propagated_computed (by cases type <;> simp [copiedField, isGlobal])
          (by cases type <;> simp [copiedField, isGlobal])
      | false =>
        obtain ⟨result, found', resultLocal, -, stands⟩ := optimizeOperand_spec cfg short split swept visit enough isGlobal
        obtain rfl := Option.some.inj (found'.symm.trans found)
        have same : result.elim (.field field) .field = LlirOperand.field (result.getD field) := by cases result <;> rfl
        have isLocal : llirOperandIsFieldGlobal (result.getD field) = false := by
          cases result with
          | none => exact isGlobal
          | some copy => exact resultLocal copy rfl
        rw [same]
        cases type with
        | move => exact propagated_move isGlobal isLocal stands
        | not | negate => exact propagated_computed rfl rfl
  | binary type left right destination =>
    obtain ⟨left', -, optimized⟩ := Option.bind_eq_some_iff.mp optimized
    obtain ⟨right', -, optimized⟩ := Option.bind_eq_some_iff.mp optimized
    obtain rfl := Option.some.inj optimized
    exact propagated_computed rfl rfl
  | arrayUpdate updateIndex value destination =>
    obtain ⟨updateIndex', -, optimized⟩ := Option.bind_eq_some_iff.mp optimized
    obtain ⟨value', -, optimized⟩ := Option.bind_eq_some_iff.mp optimized
    obtain rfl := Option.some.inj optimized
    exact propagated_computed rfl rfl
  | arrayAccess accessIndex array destination guarded =>
    obtain ⟨accessIndex', -, optimized⟩ := Option.bind_eq_some_iff.mp optimized
    obtain rfl := Option.some.inj optimized
    exact propagated_computed rfl rfl
  | methodCall name arguments destination =>
    obtain ⟨arguments', -, optimized⟩ := Option.bind_eq_some_iff.mp optimized
    obtain rfl := Option.some.inj optimized
    exact propagated_computed rfl rfl

variable (enough : (predecessorIds method.blocks).length < n)
include enough

/-- By induction on the turns: what they have rewritten copies what the definitions do. -/
private theorem copySteps_swept {done rest : List FoldStep} {blocks : List LlirBlock}
    (split : method.foldSteps = done ++ rest)
    (run : done.foldlM (copyStep n) method.blocks = some blocks) : method.Swept (Propagated method.blocks) done blocks := by
  have same : copyStep n = passTurn (optimizeAssignment n) (optimizeTerminal n) := by
    funext blocks step
    exact copyStep_eq n blocks step
  rw [same] at run
  refine LlirMethod.swept_of_run option_fallible ?_ ?_ split run
  · intro done rest blocks position index block assignment assignment' split swept _ here listed optimized
    refine ⟨(optimizeAssignment_optimized optimized).destination, ?_⟩
    refine optimizeAssignment_propagated cfg short split swept ?_ here listed optimized
    rwa [predecessorIds_of_edges (edges_of_skeletons swept.skeletons)]
  · intro blocks block index terminal terminal' optimized
    exact (optimizeTerminal_optimized optimized).successors

/-- At a use of a local that copies another one, the pass replaces it by a local of that name, unless it is the same. -/
private theorem replaces_of_copyAt {point : Nat × Nat} {field : LlirField} {name : String}
    (used : method.Uses point field)
    (copy : CopyAt method.blocks point field name) : ∃ copied : LlirField, copied.identifier = name ∧
      llirOperandIsFieldGlobal copied = false ∧
      (copied ≠ field → method.Replaces (copyStep n) (optimizeOperand n) point field (.field copied)) := by
  obtain ⟨block, mem, id, inside, listed⟩ := used
  obtain ⟨position, here⟩ := List.mem_iff_getElem?.mp mem
  obtain ⟨method', passed⟩ := copyMethod_ends cfg short enough
  obtain ⟨final, run, -⟩ := Option.bind_eq_some_iff.mp passed
  obtain ⟨done, step, rest, split, turn⟩ := LlirMethod.exists_turn here inside
  obtain ⟨blocks, run⟩ := option_fallible.foldlM_done (split ▸ run)
  have swept := copySteps_swept cfg short enough split run
  obtain ⟨new, here', id', visit⟩ := turn swept
  have place : (new.id, point.2) = point := Prod.ext (id'.trans id) rfl
  have isLocal : llirOperandIsFieldGlobal field = false := by
    cases copy
    assumption
  obtain ⟨result, optimized, resultLocal, copies, -⟩ := optimizeOperand_spec cfg short split swept visit
    (by rwa [predecessorIds_of_edges (edges_of_skeletons swept.skeletons)]) isLocal
  obtain ⟨copied, rfl, named⟩ := Option.map_eq_some_iff.mp ((copies name).mpr (place ▸ copy))
  refine ⟨copied, named, resultLocal copied rfl, fun changed => ?_⟩
  refine ⟨done, step, rest, blocks, new, _, split, run, visit, id'.trans id, listed, optimized, fun same => changed ?_⟩
  exact LlirOperand.field.inj same

/-- The pass replaces only such uses. -/
private theorem copyAt_of_replaces {point : Nat × Nat} {field : LlirField} {operand : LlirOperand}
    (replaces : method.Replaces (copyStep n) (optimizeOperand n) point field operand) : ∃ copied : LlirField,
    operand = .field copied ∧ llirOperandIsFieldGlobal copied = false ∧ method.Uses point field ∧
      CopyAt method.blocks point field copied.identifier := by
  obtain ⟨done, step, rest, blocks, block, operands, split, run, visit, id, listed, optimized, changed⟩ := replaces
  have swept := copySteps_swept cfg short enough split run
  obtain ⟨position, old, here, here', id', -, inside, length, rfl⟩ := swept.visit split visit
  obtain ⟨isLocal, -⟩ := optimizeOperand_replaced optimized changed
  obtain ⟨result, optimized', resultLocal, copies, -⟩ := optimizeOperand_spec cfg short split swept visit
    (by rwa [predecessorIds_of_edges (edges_of_skeletons swept.skeletons)]) isLocal
  obtain rfl := Option.some.inj (optimized'.symm.trans optimized)
  cases result with
  | none => exact absurd rfl changed
  | some copied =>
    refine ⟨copied, rfl, resultLocal copied rfl, ⟨old, List.mem_of_getElem? here, id'.trans id, length ▸ inside, listed⟩, ?_⟩
    have place : (block.id, point.2) = point := Prod.ext id rfl
    exact place ▸ (copies copied.identifier).mp rfl

end

/-- No run comes to a use of a variable that the activation has not assigned and whose value differs from that of the local
which the assignments on all other ways to the use copy to it. -/
def UnassignedCopied (llir : Llir) (r : Nat → MachineState) (method : LlirMethod) : Prop :=
  ∀ n frame rest, (r n).status = .running → (r n).frames = frame :: rest → frame.method = method.identifier →
    ∀ field name, method.Uses (frame.block, frame.index) field → ((r n).cell llir frame field 0).Unassigned →
      CopyAt method.blocks (frame.block, frame.index) field name →
      ((r n).cell llir frame field 0).value = (frame.locals name 0).value

/-- The replaced operands that are unassigned agree with their copies exactly if the copied ones do. -/
theorem replacedHold_iff {llir : Llir} {method : LlirMethod} {n : Nat}
    (locals : ∀ field : LlirField, llirOperandIsFieldGlobal field = false → ¬ llir.IsGlobal field.identifier)
    (cfg : WellFormedCfg method.blocks) (short : ShortBlocks method.blocks)
    (enough : (predecessorIds method.blocks).length < n) {environment : Environment} {r : Nat → MachineState} :
    method.ReplacedHold (copyStep n) (optimizeOperand n) llir environment r Cell.Unassigned ↔
      UnassignedCopied llir r method := by
  have value (s : MachineState) (frame : Frame) {copied : LlirField} (isLocal : llirOperandIsFieldGlobal copied = false) :
      s.operand llir environment frame (.field copied) = (frame.locals copied.identifier 0).value := by
    rw [MachineState.operand, MachineState.cell, if_neg (locals copied isLocal)]
  constructor
  · intro hold i frame rest running top inside field name used unassigned copy
    obtain ⟨copied, rfl, isLocal, replaced⟩ := replaces_of_copyAt cfg short enough used copy
    rw [← value (r i) frame isLocal]
    by_cases same : copied = field
    · rw [same]
      rfl
    · exact (hold i frame rest running top inside field _ (replaced same) unassigned).symm
  · intro hold i frame rest running top inside field operand replaces unassigned
    obtain ⟨copied, rfl, isLocal, used, copy⟩ := copyAt_of_replaces cfg short enough replaces
    rw [value (r i) frame isLocal]
    exact (hold i frame rest running top inside field copied.identifier used unassigned copy).symm

/-- Propagation replaces a field only by one with the same value and leaves every run as it is, exactly if no run comes to a
use of an unassigned parameter that differs from the local which all assignments to it that reach the use copy. -/
theorem accepts_copyPropagation_preserves_iff {program analyzed : IrProgram} (source : program.FromSource)
    (accepted : Accepts program analyzed) {lowered llir : Llir} (generated : llirGeneratorGenerateLlir analyzed = some lowered)
    (optimized : Optimized lowered llir) (short : ∀ method ∈ llir.methods, ShortBlocks method.blocks) {n : Nat}
    (enough : ∀ method ∈ llir.methods, (predecessorIds method.blocks).length < n) :
    ∃ propagated, optimizationCopyPropagation n llir = some propagated ∧ ∀ method ∈ llir.methods, ∃ method',
      propagated.method method.identifier = some method' ∧ ∀ environment values globals,
        (run propagated environment (startMethod environment method' values globals) =
            run llir environment (startMethod environment method values globals) ∧
          ∀ other ∈ llir.methods, other.ReplacedHold (copyStep n) (optimizeOperand n) llir environment
            (run llir environment (startMethod environment method values globals)) fun _ => True) ↔
        ∀ other ∈ llir.methods,
          UnassignedCopied llir (run llir environment (startMethod environment method values globals)) other := by
  have regular := optimized_regular (accepts_regular source accepted generated) optimized
  have ends (method : LlirMethod) (mem : method ∈ llir.methods) : copyMethod n method =
      some ((copyMethod n method).getD method) := by
    obtain ⟨method', run⟩ := copyMethod_ends (regular.cfg method mem) (short method mem) (enough method mem)
    rw [run]
    rfl
  have passed := mapM_eq_some ends
  refine ⟨{ llir with methods := llir.methods.map fun method => (copyMethod n method).getD method }, ?_, fun method mem => ?_⟩
  · rw [optimizationCopyPropagation, passed]
    rfl
  · obtain ⟨method', found, preserves⟩ := pass_iff (copyPropagation_replaces n) regular short enough passed mem
    refine ⟨method', found, fun environment values globals => (preserves environment values globals).trans ?_⟩
    exact forall₂_congr fun other mem =>
      replacedHold_iff regular.locals (regular.cfg other mem) (short other mem) (enough other mem)

/-- `int f(int a, int b) { if (a == 2) { a = b; } return a; } void main() { f(5, 7); }` -/
def partialCopy : IrProgram where
  imports := []
  fields := []
  methods := [
    { imported := false, returnType := .int, identifier := "f", arguments := [parameter 0 "a", parameter 1 "b"]
      block := .mk [] (.cons (.ifStatement (.binary .equal (.location (.scalar 2 "a")) (literal 2 '2'))
          (.mk [] (.cons (.assignment ⟨.scalar 3 "a", .set, some (.location (.scalar 4 "b"))⟩) .nil)))
        (.cons (.returnStatement (some (.location (.scalar 5 "a")))) .nil)) },
    { imported := false, returnType := .void, identifier := "main", arguments := []
      block := .mk [] (.cons (.methodCall "f" (.expression (literal 5 '5') (.expression (literal 7 '7') .nil))) .nil) }]
where
  parameter (node : Nat) (identifier : String) : IrField :=
    { node := node, type := .int, constant := false, identifier := identifier, arrayLength := 1, lengthToken := none
      initializer := none }
  literal (value : Word) (digit : Char) : IrExpression := .literal ⟨false, .int, value, some ⟨false, [digit]⟩⟩

def partialCopyLlir : Llir := (generateLlir (semanticsAnalyze partialCopy).2).1

def partialCopyPropagated : Llir := (optimizationCopyPropagation 9 partialCopyLlir).getD ⟨[], []⟩

def partialCopyCall (llir : Llir) : Nat → MachineState :=
  run llir silentEnvironment
    (startMethod silentEnvironment ((llir.method "f").getD ⟨"", [], []⟩) [5, 7] partialCopyLlir.initialGlobals)

private theorem partialCopy_generated : partialCopy.FromSource ∧ (semanticsAnalyze partialCopy).1 = 0 ∧
    llirGeneratorGenerateLlir (semanticsAnalyze partialCopy).2 = some partialCopyLlir ∧
    optimizationCopyPropagation 9 partialCopyLlir = some partialCopyPropagated ∧
    (partialCopyLlir.method "f").isSome ∧ (∀ method ∈ partialCopyLlir.methods, ShortBlocks method.blocks) ∧
    ∀ method ∈ partialCopyLlir.methods, (predecessorIds method.blocks).length < 9 := by
  unfold ShortBlocks
  decide +kernel

private theorem partialCopyCall_returns (n : Nat) : (partialCopyCall partialCopyLlir (6 + n)).status = .returned 5 ∧
    (partialCopyCall partialCopyPropagated (6 + n)).status = .returned 7 := by
  constructor
  · exact run_returned (by decide +kernel) n
  · exact run_returned (by decide +kernel) n

theorem accepts_copyPropagation_preserves_iff_partialCopy :
    ¬ ∀ other ∈ partialCopyLlir.methods, UnassignedCopied partialCopyLlir (partialCopyCall partialCopyLlir) other := by
  obtain ⟨source, accepted, generated, propagates, isSome, short, enough⟩ := partialCopy_generated
  obtain ⟨propagated, run, preserves⟩ := accepts_copyPropagation_preserves_iff source (Prod.ext accepted rfl) generated
    .lowered short enough
  obtain rfl := Option.some.inj (propagates.symm.trans run)
  obtain ⟨f, called⟩ := Option.isSome_iff_exists.mp isSome
  have name : f.identifier = "f" := by simpa using List.find?_some called
  obtain ⟨f', called', iff⟩ := preserves f (List.mem_of_find?_eq_some called)
  rw [name] at called'
  intro hold
  rw [partialCopyCall, called, Option.getD_some] at hold
  have same := ((iff silentEnvironment [5, 7] partialCopyLlir.initialGlobals).mpr hold).1
  have before := (partialCopyCall_returns 0).1
  have after := (partialCopyCall_returns 0).2
  rw [partialCopyCall, called, Option.getD_some, ← same] at before
  rw [partialCopyCall, called', Option.getD_some, before] at after
  cases after

/-- The call returns 5, and after the propagation it returns 7. -/
theorem partialCopy_changes : partialCopy.FromSource ∧ Accepts partialCopy (semanticsAnalyze partialCopy).2 ∧
    llirGeneratorGenerateLlir (semanticsAnalyze partialCopy).2 = some partialCopyLlir ∧
    optimizationCopyPropagation 9 partialCopyLlir = some partialCopyPropagated ∧
    ∀ n, (partialCopyCall partialCopyLlir (6 + n)).status = .returned 5 ∧
      (partialCopyCall partialCopyPropagated (6 + n)).status = .returned 7 :=
  ⟨partialCopy_generated.1, Prod.ext partialCopy_generated.2.1 rfl, partialCopy_generated.2.2.1,
    partialCopy_generated.2.2.2.1, partialCopyCall_returns⟩

end Roast.CopyPropagation
