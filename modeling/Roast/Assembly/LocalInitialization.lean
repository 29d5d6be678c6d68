import Roast.Assembly.GlobalInitialization

/-! The assignments that initialize a local field, `generate_field_initialization` with its 32-bit counter, and what they
leave in the frame. -/
namespace Roast

def initializationLoop (field : LlirField) : Nat → BitVec 32 → List LlirAssignment → Option (List LlirAssignment)
  | 0, _, _ => none
  | n + 1, i, assignments =>
    if (i.toNat : Int) < field.valueCount then
      initializationLoop field n (i + 1)
        (assignments ++ [.arrayUpdate (.literal (i.setWidth 64)) (.literal (field.values.getD i.toNat 0)) field])
    else some assignments

def fieldInitialization (n : Nat) (field : LlirField) : Option (List LlirAssignment) :=
  if field.isArray then initializationLoop field n 0 []
  else some [.unary .move (.literal (field.values.headD 0)) field]

/-- The counter never reaches a count of `2 ^ 32` or more. -/
private theorem initializationLoop_endless {field : LlirField} (large : 2 ^ 32 ≤ field.valueCount) (n : Nat)
    (i : BitVec 32)
    (assignments : List LlirAssignment) : initializationLoop field n i assignments = none := by
  induction n generalizing i assignments with
  | zero => rfl
  | succ n ih =>
    have below : (i.toNat : Int) < field.valueCount := by
      have := i.isLt
      omega
    rw [initializationLoop, if_pos below, ih]

/-- More turns do not change the assignments. -/
private theorem initializationLoop_mono {field : LlirField} {n m : Nat} {i : BitVec 32}
    {assignments made : List LlirAssignment}
    (ends : initializationLoop field n i assignments = some made) (more : n ≤ m) :
    initializationLoop field m i assignments = some made := by
  induction n generalizing m i assignments with
  | zero => cases ends
  | succ n ih =>
    obtain ⟨m, rfl⟩ : ∃ k, m = k + 1 := ⟨m - 1, by omega⟩
    rw [initializationLoop] at ends ⊢
    split at ends
    · rename_i below
      rw [if_pos below]
      exact ih ends (by omega)
    · rename_i stop
      rw [if_neg stop]
      exact ends

/-- With enough fuel the loop stores each element once. -/
private theorem initializationLoop_eq {field : LlirField} (small : field.valueCount < 2 ^ 32) (left : Nat) {k : Nat}
    (count : k + left = field.valueCount.toNat) {n : Nat} (enough : left < n) (assignments : List LlirAssignment) :
    initializationLoop field n (BitVec.ofNat 32 k) assignments =
      some (assignments ++ (List.range' k left).map fun i =>
        .arrayUpdate (.literal (BitVec.ofNat 64 i)) (.literal (field.values.getD i 0)) field) := by
  induction left generalizing k n assignments with
  | zero =>
    obtain ⟨n, rfl⟩ : ∃ m, n = m + 1 := ⟨n - 1, by omega⟩
    have exact : (BitVec.ofNat 32 k).toNat = k := by
      rw [BitVec.toNat_ofNat, Nat.mod_eq_of_lt (by omega)]
    rw [initializationLoop, exact, if_neg (by omega)]
    simp
  | succ left ih =>
    obtain ⟨n, rfl⟩ : ∃ m, n = m + 1 := ⟨n - 1, by omega⟩
    have exact : (BitVec.ofNat 32 k).toNat = k := by
      rw [BitVec.toNat_ofNat, Nat.mod_eq_of_lt (by omega)]
    have index : (BitVec.ofNat 32 k).setWidth 64 = BitVec.ofNat 64 k := by
      rw [← BitVec.toNat_inj, BitVec.toNat_setWidth, exact, BitVec.toNat_ofNat]
    have next : BitVec.ofNat 32 k + 1 = BitVec.ofNat 32 (k + 1) := (BitVec.ofNat_add k 1).symm
    rw [initializationLoop, exact, if_pos (by omega), index, next, ih (by omega) (by omega), List.range'_succ,
      List.map_cons, List.append_assoc, List.singleton_append]

private theorem fieldInitialization_array {field : LlirField} (array : field.isArray = true)
    (small : field.valueCount < 2 ^ 32)
    {n : Nat} (enough : field.valueCount.toNat < n) : fieldInitialization n field = some (arrayInitialization field) := by
  rw [fieldInitialization, if_pos array, arrayInitialization, List.range_eq_range']
  exact initializationLoop_eq small field.valueCount.toNat (Nat.zero_add _) enough []

/-- The generator adds what the loop makes, where the loop ends. -/
private theorem generateFieldInitialization_eq {field : LlirField} {n : Nat} {assignments : List LlirAssignment}
    (made : fieldInitialization n field = some assignments) (g : LlirGenerator) :
    generateFieldInitialization g field = assignments.foldl LlirGenerator.addAssignment g := by
  cases array : field.isArray with
  | false =>
    rw [fieldInitialization, if_neg (by simp [array])] at made
    rw [generateFieldInitialization, if_neg (by simp [array]), ← Option.some.inj made]
    rfl
  | true =>
    have small : field.valueCount < 2 ^ 32 := by
      by_contra large
      rw [fieldInitialization, if_pos array, initializationLoop_endless (not_lt.mp large)] at made
      cases made
    have whole := fieldInitialization_array array small (Nat.lt_succ_self field.valueCount.toNat)
    rw [fieldInitialization, if_pos array] at made whole
    have same := (initializationLoop_mono made (Nat.le_max_left _ _)).symm.trans
      (initializationLoop_mono whole (Nat.le_max_right _ _))
    rw [generateFieldInitialization, if_pos array, LlirGenerator.assert, if_pos small, Option.some.inj same]

section
variable (llir : Llir) (environment : Environment)

def executeAssignments (s : MachineState) : List LlirAssignment → MachineState
  | [] => s
  | assignment :: rest =>
    match s.frames with
    | [] => executeAssignments s rest
    | frame :: callers => executeAssignments (stepAssignment llir environment s frame callers assignment) rest

/-- The initialization of a field at a scope level ends; the assignments that `generate_block` adds for it set all its
elements and nothing else. -/
def IrField.InitializedLocally (field : IrField) (level : Nat) : Prop :=
  ∃ n assignments, fieldInitialization n (field.llirField level) = some assignments ∧
    (∀ g : LlirGenerator, g.symbolTableGetScopeLevel = level →
      (generateBlockField g field).currentBlock.assignments = g.currentBlock.assignments ++ assignments) ∧
    ∀ s frame callers, s.frames = frame :: callers →
      ∃ frame', executeAssignments llir environment s assignments = { s with frames := frame' :: callers } ∧
        (∀ position : Nat, position < field.arrayLength →
          (frame'.locals (field.llirField level).identifier position).value = field.declaredValue position) ∧
        ∀ name (position : Nat), name ≠ (field.llirField level).identifier ∨ field.arrayLength ≤ position →
          frame'.locals name position = frame.locals name position

end

/-- The generator adds the assignments of the initialization to the block. -/
private theorem generateBlockField_emits {g : LlirGenerator} {field : IrField} {n : Nat}
    {assignments : List LlirAssignment}
    (made : fieldInitialization n (field.llirField g.symbolTableGetScopeLevel) = some assignments) :
    (generateBlockField g field).currentBlock.assignments = g.currentBlock.assignments ++ assignments := by
  have same : (generateField g field).1 = field.llirField g.symbolTableGetScopeLevel := rfl
  have kept : (generateField g field).2.currentBlock = g.currentBlock := by
    simp only [generateField, LlirGenerator.symbolTableSet, LlirGenerator.assert]
    split <;> rfl
  have folded (assignments : List LlirAssignment) (g : LlirGenerator) :
      (assignments.foldl LlirGenerator.addAssignment g).currentBlock.assignments =
        g.currentBlock.assignments ++ assignments := by
    induction assignments generalizing g with
    | nil => simp
    | cons assignment rest ih => simp [ih, LlirGenerator.addAssignment]
  rw [← same] at made
  rw [generateBlockField]
  dsimp only
  rw [generateFieldInitialization_eq made, folded, LlirGenerator.addField, kept]

section
variable {llir : Llir} {environment : Environment}

private theorem executeAssignments_append (s : MachineState) (first second : List LlirAssignment) :
    executeAssignments llir environment s (first ++ second) =
      executeAssignments llir environment (executeAssignments llir environment s first) second := by
  induction first generalizing s with
  | nil => rfl
  | cons assignment first ih =>
    rw [List.cons_append, executeAssignments, executeAssignments]
    cases s.frames <;> exact ih _

variable (environment) in
/-- The first `count` elements are set and nothing else. -/
private theorem executeAssignments_array {field : LlirField} (isLocal : ¬ llir.IsGlobal field.identifier)
    (small : field.valueCount < 2 ^ 32) {count : Nat} (inside : count ≤ field.valueCount) {s : MachineState}
    {frame : Frame} {callers : List Frame} (frames : s.frames = frame :: callers) :
    ∃ frame', executeAssignments llir environment s ((List.range count).map fun i =>
        .arrayUpdate (.literal (BitVec.ofNat 64 i)) (.literal (field.values.getD i 0)) field) =
          { s with frames := frame' :: callers } ∧
      (∀ position < count, (frame'.locals field.identifier position).value = field.values.getD position 0) ∧
      ∀ name position, name ≠ field.identifier ∨ count ≤ position →
        frame'.locals name position = frame.locals name position := by
  induction count with
  | zero =>
    refine ⟨frame, ?_, by simp, by simp⟩
    rw [← frames]
    rfl
  | succ count ih =>
    obtain ⟨frame', executed, written, kept⟩ := ih (by omega)
    have position : (BitVec.ofNat 64 count).toNat = count := by
      rw [BitVec.toNat_ofNat, Nat.mod_eq_of_lt (by omega)]
    have bounds : InBounds (BitVec.ofNat 64 count) field := by
      unfold InBounds
      omega
    rw [List.range_succ, List.map_append, executeAssignments_append, executed, List.map_singleton, executeAssignments]
    simp only [executeAssignments, stepAssignment, MachineState.operand, if_pos bounds, MachineState.store,
      if_neg isLocal, position]
    refine ⟨_, rfl, fun other below => ?_, fun name other outside => ?_⟩
    · by_cases last : other = count
      · simp [Store.set, last]
      · simpa [Store.set, last] using written other (by omega)
    · have different : ¬ (name = field.identifier ∧ other = count) := by
        rintro ⟨same, rfl⟩
        rcases outside with outside | outside
        · exact outside same
        · omega
      rw [← kept name other (outside.imp id (by omega))]
      simp [Store.set, different]

/-- The initialization of a declaration ends and does its work exactly when a 32-bit counter can reach its length. -/
private theorem initializedLocally_iff {field : IrField} (ready : field.Ready) (level : Nat)
    (isLocal : ¬ llir.IsGlobal (field.llirField level).identifier) :
    field.InitializedLocally llir environment level ↔ (field.type.isArray = true → field.arrayLength < 2 ^ 32) := by
  have isArray : (field.llirField level).isArray = field.type.isArray := rfl
  have valueCount : (field.llirField level).valueCount = field.arrayLength := rfl
  have value (position : Nat) : (field.llirField level).values.getD position 0 = field.declaredValue position :=
    llirField_value position
  constructor
  · rintro ⟨n, assignments, made, -⟩ array
    by_contra large
    rw [fieldInitialization, if_pos (isArray.trans array), initializationLoop_endless (not_lt.mp large)] at made
    cases made
  · intro small
    cases array : field.type.isArray with
    | true =>
      have bound := small array
      have whole : ((field.llirField level).valueCount.toNat : Int) = field.arrayLength :=
        Int.toNat_of_nonneg ready.positive.le
      have made := fieldInitialization_array (isArray.trans array) bound (Nat.lt_succ_self _)
      refine ⟨_, _, made, ?_, fun s frame callers frames => ?_⟩
      · rintro g rfl
        exact generateBlockField_emits made
      obtain ⟨frame', executed, written, kept⟩ :=
        executeAssignments_array environment isLocal bound whole.le frames
      refine ⟨frame', executed, fun position below => ?_, fun name position outside => kept name position ?_⟩
      · rw [written position (by omega), value]
      · exact outside.imp id fun above => by omega
    | false =>
      have single := ready.scalar array
      have made : fieldInitialization 0 (field.llirField level) =
          some [.unary .move (.literal ((field.llirField level).values.headD 0)) (field.llirField level)] :=
        if_neg (by simp [isArray, array])
      refine ⟨0, _, made, ?_, fun s frame callers frames => ?_⟩
      · rintro g rfl
        exact generateBlockField_emits made
      have head : (field.llirField level).values.headD 0 = field.declaredValue 0 := by
        rw [← value, List.getD_eq_getElem?_getD, ← List.head?_eq_getElem?, List.headD_eq_head?_getD]
      simp only [executeAssignments, frames, stepAssignment, MachineState.operand, LlirUnaryType.apply,
        MachineState.store, if_neg isLocal, head]
      refine ⟨_, rfl, fun position below => ?_, fun name position outside => ?_⟩
      · obtain rfl : position = 0 := by omega
        simp [Store.set]
      · have different : ¬ (name = (field.llirField level).identifier ∧ position = 0) := by
          rintro ⟨same, rfl⟩
          rcases outside with outside | outside
          · exact outside same
          · omega
        simp [Store.set, different]

end

def localInitialization (llir : Llir) : Rules where
  literal _ := True
  field field := ∀ level environment, field.InitializedLocally llir environment (level + 1) ↔
    (field.type.isArray = true → field.arrayLength < 2 ^ 32)

/-- The declarations of an accepted program, whatever their lengths and initializers. -/
theorem accepts_initializesLocals_iff {program analyzed : IrProgram} (source : program.FromSource)
    (accepted : Accepts program analyzed) : analyzed.All (localInitialization (generateLlir analyzed).1) := by
  have ready := accepts_ready source accepted
  have fields : (generateLlir analyzed).1.fields = analyzed.fields.map (IrField.llirField 0) := (ready.globals False).1
  have isLocal (field : IrField) (level : Nat) :
      ¬ (generateLlir analyzed).1.IsGlobal (field.llirField (level + 1)).identifier := by
    intro isGlobal
    rw [Llir.IsGlobal, fields, List.map_map, List.mem_map] at isGlobal
    obtain ⟨declared, mem, same⟩ := isGlobal
    refine llirField_not_identifier (Nat.succ_pos level) field ?_
    rw [← same]
    exact ready.names _ (List.mem_append_left _ (List.mem_append_right _ (List.mem_map_of_mem mem)))
  have fills : sourceRules.Fills (readyRules.and (localInitialization (generateLlir analyzed).1)) :=
    ⟨fun literal h => ⟨sourceRules_fills.literal literal h, trivial⟩,
      fun field h => ⟨sourceRules_fills.field field h, fun level environment =>
        initializedLocally_iff (sourceRules_fills.field field h) (level + 1) (isLocal _ level)⟩⟩
  exact ((programTyped_and analyzed).mp (accepts_fills fills source (accepts_typed source accepted) accepted)).2

theorem accepts_initializesLocals_iff_shadowing : (semanticsAnalyze shadowing).2.All
    (localInitialization (generateLlir (semanticsAnalyze shadowing).2).1) :=
  accepts_initializesLocals_iff (by decide +kernel : shadowing.FromSource) (Prod.ext (by decide +kernel) rfl)

/-- `int a[4294967296];` -/
def hugeArray : IrField :=
  { node := 0, type := .intArray, constant := false, identifier := "a", arrayLength := 4294967296
    lengthToken := some ⟨false, "4294967296".toList⟩, initializer := none }

/-- `void main() { int a[4294967296]; }` -/
def hugeLocal : IrProgram where
  imports := []
  fields := []
  methods := [⟨false, .void, "main", [], .mk [hugeArray] .nil⟩]

/-- The program is accepted and the initialization of the array does not end. -/
theorem hugeLocal_endless : hugeLocal.FromSource ∧ (semanticsAnalyze hugeLocal).1 = 0 ∧
    ∀ n, fieldInitialization n (hugeArray.llirField 1) = none := by
  refine ⟨by decide +kernel, by decide +kernel, fun n => ?_⟩
  have array : (hugeArray.llirField 1).isArray = true := rfl
  have large : 2 ^ 32 ≤ (hugeArray.llirField 1).valueCount := (by decide : (2 ^ 32 : Int) ≤ 4294967296)
  rw [fieldInitialization, if_pos array]
  exact initializationLoop_endless large n 0 []

end Roast
