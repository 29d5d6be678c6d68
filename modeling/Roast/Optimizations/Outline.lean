import Roast.Optimizations.CopyPropagation
import Roast.Assembly.Kinds
import Roast.Systems.Loops

/-! What constant folding and copy propagation leave as it is, and where the arrays that a method indexes are declared. -/
namespace Roast
open Systems LlirGenerator

def LlirBlock.outline (block : LlirBlock) : List LlirField × List (Option LlirField) :=
  (block.fields, block.assignments.map LlirAssignment.array)

def LlirMethod.outline (method : LlirMethod) : String × List (List LlirField × List (Option LlirField)) :=
  (method.identifier, method.blocks.map LlirBlock.outline)

/-- An item is replaced by another one with the same image. -/
theorem map_set_of_same {α β : Type*} (f : α → β) {l : List α} {i : Nat} {old new : α} (here : l[i]? = some old)
    (same : f new = f old) : (l.set i new).map f = l.map f := by
  obtain ⟨inside, rfl⟩ := List.getElem?_eq_some_iff.mp here
  rw [List.map_set, same, ← List.getElem_map f]
  · exact List.set_getElem_self _
  · simpa using inside

/-- The outline knows an assignment by what it indexes. -/
private theorem outline_replace {block : LlirBlock} {index : Nat} {old new : LlirAssignment}
    (at_ : block.assignments[index]? = some old) (same : new.array = old.array) :
    { block with assignments := block.assignments.set index new }.outline = block.outline :=
  congrArg (Prod.mk block.fields) (map_set_of_same LlirAssignment.array at_ same)

private theorem optimizeAssignment_array {n : Nat} {blocks : List LlirBlock} {block : LlirBlock} {index : Nat}
    {assignment assignment' : LlirAssignment} (h : optimizeAssignment n blocks block index assignment = .ok assignment') :
    assignment'.array = assignment.array := by
  cases assignment with
  | unary type source destination =>
    obtain ⟨source', -, h⟩ := except_bind_eq_ok h
    cases source' <;> exact Except.ok.inj h ▸ rfl
  | binary type left right destination =>
    obtain ⟨left', -, h⟩ := except_bind_eq_ok h
    obtain ⟨right', -, h⟩ := except_bind_eq_ok h
    split at h
    · split at h
      · cases h
      · exact Except.ok.inj h ▸ rfl
    · exact Except.ok.inj h ▸ rfl
  | arrayUpdate updateIndex value destination =>
    obtain ⟨updateIndex', -, h⟩ := except_bind_eq_ok h
    obtain ⟨value', -, h⟩ := except_bind_eq_ok h
    exact Except.ok.inj h ▸ rfl
  | arrayAccess accessIndex array destination guarded =>
    obtain ⟨accessIndex', -, h⟩ := except_bind_eq_ok h
    exact Except.ok.inj h ▸ rfl
  | methodCall method arguments destination =>
    obtain ⟨arguments', -, h⟩ := except_bind_eq_ok h
    exact Except.ok.inj h ▸ rfl

/-- Folding keeps the outline of the blocks. -/
private theorem foldStep_outline {n : Nat} {blocks blocks' : List LlirBlock} {step : FoldStep}
    (h : foldStep n blocks step = .ok blocks') : blocks'.map LlirBlock.outline = blocks.map LlirBlock.outline := by
  cases step with
  | assignment position index =>
    rw [foldStep] at h
    split at h
    · exact Except.ok.inj h ▸ rfl
    · rename_i block at_
      split at h
      · exact Except.ok.inj h ▸ rfl
      · rename_i assignment here
        obtain ⟨assignment', optimized, h⟩ := except_bind_eq_ok h
        exact Except.ok.inj h ▸ map_set_of_same LlirBlock.outline at_ (outline_replace here (optimizeAssignment_array optimized))
  | terminal position =>
    rw [foldStep] at h
    split at h
    · exact Except.ok.inj h ▸ rfl
    · rename_i block at_
      obtain ⟨terminal', -, h⟩ := except_bind_eq_ok h
      exact Except.ok.inj h ▸ map_set_of_same LlirBlock.outline at_ rfl

theorem optimizationConstantFolding_outline {n : Nat} {llir llir' : Llir}
    (h : optimizationConstantFolding n llir = .ok llir') :
    llir'.fields = llir.fields ∧ llir'.methods.map LlirMethod.outline = llir.methods.map LlirMethod.outline := by
  obtain ⟨methods, mapped, h⟩ := except_bind_eq_ok h
  obtain rfl := Except.ok.inj h
  refine ⟨rfl, (except_fallible FoldError).mapM_map (fun method _ method' folded => ?_) mapped⟩
  obtain ⟨blocks, run, folded⟩ := except_bind_eq_ok folded
  obtain rfl := Except.ok.inj folded
  have kept := (except_fallible FoldError).foldlM_keeps (fun state => state.map LlirBlock.outline =
    method.blocks.map LlirBlock.outline) (fun _ _ _ stepped same => (foldStep_outline stepped).trans same) run rfl
  exact congrArg (Prod.mk method.identifier) kept

namespace CopyPropagation

private theorem optimizeAssignment_array {n : Nat} {blocks : List LlirBlock} {block : LlirBlock} {index : Nat}
    {assignment assignment' : LlirAssignment}
    (h : optimizeAssignment n blocks block index assignment = some assignment') :
    assignment'.array = assignment.array := by
  cases assignment with
  | unary type source destination =>
    obtain ⟨source', -, h⟩ := Option.bind_eq_some_iff.mp h
    exact Option.some.inj h ▸ rfl
  | binary type left right destination =>
    obtain ⟨left', -, h⟩ := Option.bind_eq_some_iff.mp h
    obtain ⟨right', -, h⟩ := Option.bind_eq_some_iff.mp h
    exact Option.some.inj h ▸ rfl
  | arrayUpdate updateIndex value destination =>
    obtain ⟨updateIndex', -, h⟩ := Option.bind_eq_some_iff.mp h
    obtain ⟨value', -, h⟩ := Option.bind_eq_some_iff.mp h
    exact Option.some.inj h ▸ rfl
  | arrayAccess accessIndex array destination guarded =>
    obtain ⟨accessIndex', -, h⟩ := Option.bind_eq_some_iff.mp h
    exact Option.some.inj h ▸ rfl
  | methodCall method arguments destination =>
    obtain ⟨arguments', -, h⟩ := Option.bind_eq_some_iff.mp h
    exact Option.some.inj h ▸ rfl

/-- Propagation keeps the outline of the blocks. -/
private theorem copyStep_outline {n : Nat} {blocks blocks' : List LlirBlock} {step : FoldStep}
    (h : copyStep n blocks step = some blocks') : blocks'.map LlirBlock.outline = blocks.map LlirBlock.outline := by
  cases step with
  | assignment position index =>
    rw [copyStep] at h
    split at h
    · exact Option.some.inj h ▸ rfl
    · rename_i block at_
      split at h
      · exact Option.some.inj h ▸ rfl
      · rename_i assignment here
        obtain ⟨assignment', optimized, h⟩ := Option.bind_eq_some_iff.mp h
        exact Option.some.inj h ▸ map_set_of_same LlirBlock.outline at_ (outline_replace here (optimizeAssignment_array optimized))
  | terminal position =>
    rw [copyStep] at h
    split at h
    · exact Option.some.inj h ▸ rfl
    · rename_i block at_
      obtain ⟨terminal', -, h⟩ := Option.bind_eq_some_iff.mp h
      exact Option.some.inj h ▸ map_set_of_same LlirBlock.outline at_ rfl

theorem optimizationCopyPropagation_outline {n : Nat} {llir llir' : Llir}
    (h : optimizationCopyPropagation n llir = some llir') :
    llir'.fields = llir.fields ∧ llir'.methods.map LlirMethod.outline = llir.methods.map LlirMethod.outline := by
  obtain ⟨methods, mapped, h⟩ := Option.bind_eq_some_iff.mp h
  obtain rfl := Option.some.inj h
  refine ⟨rfl, option_fallible.mapM_map (fun method _ method' copied => ?_) mapped⟩
  obtain ⟨blocks, run, copied⟩ := Option.bind_eq_some_iff.mp copied
  obtain rfl := Option.some.inj copied
  have kept := option_fallible.foldlM_keeps (fun state => state.map LlirBlock.outline =
    method.blocks.map LlirBlock.outline) (fun _ _ _ stepped same => (copyStep_outline stepped).trans same) run rfl
  exact congrArg (Prod.mk method.identifier) kept

end CopyPropagation

def LlirMethod.ArraysDeclared (globals : List LlirField) (method : LlirMethod) : Prop :=
  ∀ block ∈ method.blocks, ∀ assignment ∈ block.assignments, ∀ array ∈ assignment.array,
    array ∈ globals ∨ ∃ other ∈ method.blocks, array ∈ other.fields ∧ array.isArray = true

theorem LlirMethod.ArraysDeclared.of_outline {globals : List LlirField} {method method' : LlirMethod}
    (h : method.ArraysDeclared globals) (same : method'.outline = method.outline) : method'.ArraysDeclared globals := by
  have outlines := (Prod.mk.inj same).2
  have twin {blocks blocks' : List LlirBlock} (same : blocks'.map LlirBlock.outline = blocks.map LlirBlock.outline)
      {block : LlirBlock} (mem : block ∈ blocks') : ∃ other ∈ blocks, other.outline = block.outline := by
    have listed := List.mem_map_of_mem (f := LlirBlock.outline) mem
    rw [same] at listed
    exact List.mem_map.mp listed
  intro block mem assignment inside array indexed
  obtain ⟨old, oldMem, old_same⟩ := twin outlines mem
  have listed : some array ∈ old.assignments.map LlirAssignment.array := by
    rw [(Prod.mk.inj old_same).2]
    exact List.mem_map.mpr ⟨assignment, inside, indexed⟩
  obtain ⟨other, otherMem, otherIndexed⟩ := List.mem_map.mp listed
  refine (h old oldMem other otherMem array otherIndexed).imp_right ?_
  rintro ⟨declaring, declaringMem, declared, isArray⟩
  obtain ⟨new, newMem, new_same⟩ := twin outlines.symm declaringMem
  exact ⟨new, newMem, (Prod.mk.inj new_same).1 ▸ declared, isArray⟩

private theorem generateMethod_arraysIndexed {g : LlirGenerator} {c : Context} {method : IrMethod}
    (hm : Matches c.scopes g.symbolTable)
    (typed : BlockTyped readyRules method.returnType c False method.arguments method.block) :
    ∀ block ∈ (generateMethod g method).1.blocks, ∀ assignment ∈ block.assignments, ∀ array ∈ assignment.array,
      array.isArray = true := by
  have start : (generateMethodStart g method).ArraysIndexed := by
    simp [LlirGenerator.ArraysIndexed, LlirGenerator.layout, generateMethodStart, llirBlockNew]
  have indexed := (generateMethodBody_adds hm typed).arrays start
  intro block mem assignment inside
  rw [generateMethod_eq] at mem
  obtain ⟨laid, listed, rfl⟩ := List.mem_map.mp mem
  obtain before | last := List.mem_append.mp listed
  · exact indexed assignment (List.mem_flatMap.mpr ⟨laid, List.mem_append_left _ before, inside⟩)
  · obtain rfl := List.mem_singleton.mp last
    exact indexed assignment (List.mem_flatMap.mpr ⟨_, List.mem_append_right _ (List.mem_singleton.mpr rfl), inside⟩)

/-- In a lowered program what a method indexes is an array that was declared, and no argument. -/
theorem accepts_arraysDeclared {program analyzed : IrProgram} (source : program.FromSource)
    (accepted : Accepts program analyzed) {llir : Llir} (generated : llirGeneratorGenerateLlir analyzed = some llir)
    {lowered : LlirMethod} (mem : lowered ∈ llir.methods) : lowered.ArraysDeclared llir.fields := by
  have ready := accepts_ready source accepted
  have names := (ready.lowered generated).methods
  have listed : lowered.identifier ∈ analyzed.methods.map IrMethod.identifier := names ▸ List.mem_map_of_mem mem
  obtain ⟨method, methodMem, same⟩ := List.mem_map.mp listed
  obtain ⟨g, c, site, found, -⟩ := ready.site generated methodMem
  have distinct := ready.methods_distinct generated
  have name : (generateMethod g method).1.identifier = method.identifier := rfl
  obtain rfl : lowered = (generateMethod g method).1 :=
    List.inj_on_of_nodup_map distinct mem (List.mem_of_find?_eq_some found) (same.symm.trans name.symm)
  obtain ⟨rfl, succeeds⟩ := llirGeneratorGenerateLlir_eq generated
  have resolved := (ready.resolved succeeds _ mem).assignments
  obtain ⟨arguments, -⟩ := generateMethod_arguments site.matchesScopes site.typed
  intro block inside assignment assigned array indexed
  have isArray := generateMethod_arraysIndexed site.matchesScopes site.typed block inside assignment assigned array indexed
  have known : array ∈ (generateLlir analyzed).1.fields ++ (generateMethod g method).1.fields := by
    have fits := (resolved block inside assignment assigned).1
    cases assignment with
    | arrayUpdate index value destination => exact Option.some.inj indexed ▸ fits.2.2
    | arrayAccess index other destination guarded => exact Option.some.inj indexed ▸ fits.2.1
    | unary | binary | methodCall => cases indexed
  obtain global | inMethod := List.mem_append.mp known
  · exact .inl global
  · right
    obtain argument | declared := List.mem_append.mp inMethod
    · rw [generateMethod_eq, arguments] at argument
      obtain ⟨field, fieldMem, rfl⟩ := List.mem_map.mp argument
      have scalar := (ready.arguments method methodMem field fieldMem).1
      exact absurd (scalar.symm.trans isArray) (by decide)
    · obtain ⟨other, otherMem, here⟩ := List.mem_flatMap.mp declared
      exact ⟨other, otherMem, here, isArray⟩

end Roast
