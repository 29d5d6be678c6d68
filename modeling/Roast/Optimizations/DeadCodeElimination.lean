import Roast.Assembly.Safety
import Roast.Systems.Saturation
import Roast.Systems.Loops
import Mathlib.Algebra.Order.BigOperators.Group.List
import Mathlib.Algebra.Order.Monoid.Canonical.Basic

/-! Dead code elimination, `dce.c`: the live variables of a method by saturation, and the removal of the assignments
to other variables from the arrays that are iterated. -/
namespace Roast
open Systems

def liveSetAdd (live : List String) (identifier : String) : List String := insertNew live identifier

/-- `llir_iterate` forward, with callbacks that only read the program. -/
def llirIterate {σ : Type} (llir : Llir) (block : LlirMethod → LlirBlock → σ → σ)
    (assignment : LlirMethod → LlirAssignment → σ → σ) (terminal : LlirMethod → LlirBlock → σ → σ) (s : σ) : σ :=
  llir.methods.foldl (fun s method => method.blocks.foldl (fun s b =>
    terminal method b (b.assignments.foldl (fun s a => assignment method a s) (block method b s))) s) s

def addLiveVariablesFromGlobals (llir : Llir) (live : List String) : List String :=
  llir.fields.foldl (fun live field => liveSetAdd live field.identifier) live

def addLiveVariablesFromFields (block : LlirBlock) (live : List String) : List String :=
  block.fields.foldl (fun live field => if field.isArray then liveSetAdd live field.identifier else live) live

def addLiveVariableFromOperand (live : List String) : LlirOperand → List String
  | .field field => liveSetAdd live field.identifier
  | _ => live

def addLiveVariablesFromMethodCallArguments (assignment : LlirAssignment) (live : List String) : List String :=
  match assignment with
  | .methodCall _ arguments _ => arguments.foldl addLiveVariableFromOperand live
  | _ => live

def addLiveVariablesFromTerminals (block : LlirBlock) (live : List String) : List String :=
  match block.terminal with
  | .branch branch => addLiveVariableFromOperand (addLiveVariableFromOperand live branch.left) branch.right
  | .llirReturn source => addLiveVariableFromOperand live source
  | _ => live

def addLiveVariablesFromAssignments (assignment : LlirAssignment) (live : List String) : List String :=
  if assignment.destination.identifier ∉ live then live
  else
    match assignment with
    | .unary _ source _ => addLiveVariableFromOperand live source
    | .binary _ left right _ => addLiveVariableFromOperand (addLiveVariableFromOperand live left) right
    | .arrayUpdate index value _ => addLiveVariableFromOperand (addLiveVariableFromOperand live index) value
    | .arrayAccess index _ _ _ => addLiveVariableFromOperand live index
    | .methodCall _ arguments _ => arguments.foldl addLiveVariableFromOperand live

def ofCurrentMethod {α σ : Type} (current : String) (callback : α → σ → σ) (method : LlirMethod) (item : α) (s : σ) : σ :=
  if method.identifier = current then callback item s else s

def initialLiveSet (llir : Llir) (current : String) : List String :=
  llirIterate llir (ofCurrentMethod current addLiveVariablesFromFields)
    (ofCurrentMethod current addLiveVariablesFromMethodCallArguments)
    (ofCurrentMethod current addLiveVariablesFromTerminals) (addLiveVariablesFromGlobals llir [])

def liveSetSweep (llir : Llir) (current : String) (live : List String) : List String :=
  llirIterate llir (fun _ _ s => s) (ofCurrentMethod current addLiveVariablesFromAssignments) (fun _ _ s => s) live

/-- The `do`-`while` loop with at most `n` sweeps; only the sizes are compared. -/
def liveSetLoop (llir : Llir) (current : String) (n : Nat) : Option (List String) :=
  saturate (liveSetSweep llir current) n (initialLiveSet llir current)

def LlirAssignment.isMethodCall : LlirAssignment → Bool
  | .methodCall _ _ _ => true
  | _ => false

/-- The iteration over an array from which `prune_dead_variables` removes; the index is unsigned and wraps. -/
def pruneLoop (live : List String) : Nat → BitVec 32 → List LlirAssignment → Option (List LlirAssignment)
  | 0, _, _ => none
  | n + 1, index, assignments =>
    match assignments[index.toNat]? with
    | none => some assignments
    | some assignment =>
      if assignment.destination.identifier ∉ live ∧ assignment.isMethodCall = false then
        pruneLoop live n (index - 1 + 1) (assignments.eraseIdx index.toNat)
      else pruneLoop live n (index + 1) assignments

def pruneBlock (live : List String) (n : Nat) (block : LlirBlock) : Option LlirBlock :=
  (pruneLoop live n 0 block.assignments).map fun assignments => { block with assignments := assignments }

def pruneMethod (live : List String) (n : Nat) (current : String) (method : LlirMethod) : Option LlirMethod :=
  if method.identifier = current then
    (method.blocks.mapM (pruneBlock live n)).map fun blocks => { method with blocks := blocks }
  else some method

def deadCodeEliminationOfCurrentMethod (n : Nat) (current : String) (llir : Llir) : Option Llir := do
  let live ← liveSetLoop llir current n
  let methods ← llir.methods.mapM (pruneMethod live n current)
  return { llir with methods := methods }

/-- The methods are iterated by index while their blocks change. -/
def deadCodeEliminationAt (n : Nat) (llir : Llir) (index : Nat) : Option Llir :=
  match llir.methods[index]? with
  | none => some llir
  | some method => deadCodeEliminationOfCurrentMethod n method.identifier llir

def optimizationDeadCodeElimination (n : Nat) (llir : Llir) : Option Llir :=
  (List.range llir.methods.length).foldlM (deadCodeEliminationAt n) llir

/-- A set that contains what a method needs and is closed under the operands of what it needs. -/
structure IsLiveSet (globals : List LlirField) (method : LlirMethod) (live : Set String) : Prop where
  fields : ∀ field ∈ globals, field.identifier ∈ live
  arrays : ∀ block ∈ method.blocks, ∀ field ∈ block.fields, field.isArray = true → field.identifier ∈ live
  calls : ∀ block ∈ method.blocks, ∀ assignment ∈ block.assignments, assignment.isMethodCall = true →
    ∀ field, .field field ∈ assignment.operands → field.identifier ∈ live
  terminals : ∀ block ∈ method.blocks, ∀ field, .field field ∈ block.terminal.operands → field.identifier ∈ live
  assignments : ∀ block ∈ method.blocks, ∀ assignment ∈ block.assignments, assignment.destination.identifier ∈ live →
    ∀ field, .field field ∈ assignment.operands → field.identifier ∈ live

def operandNames (operands : List LlirOperand) : List String :=
  operands.filterMap fun operand => match operand with
    | .field field => some field.identifier
    | _ => none

private theorem mem_operandNames {operands : List LlirOperand} {name : String} :
    name ∈ operandNames operands ↔ ∃ field, .field field ∈ operands ∧ field.identifier = name := by
  unfold operandNames
  rw [List.mem_filterMap]
  constructor
  · rintro ⟨operand, mem, same⟩
    cases operand with
    | field field => exact ⟨field, mem, by simpa using same⟩
    | literal literal => cases same
    | string string => cases same
  · rintro ⟨field, mem, rfl⟩
    exact ⟨.field field, mem, rfl⟩

def LlirMethod.liveRules (method : LlirMethod) : List (String × List String) :=
  method.blocks.flatMap fun block => block.assignments.map fun assignment =>
    (assignment.destination.identifier, operandNames assignment.operands)

def LlirBlock.liveSeeds (block : LlirBlock) : List String :=
  (block.fields.filter LlirField.isArray).map LlirField.identifier ++
    (block.assignments.filter LlirAssignment.isMethodCall).flatMap (fun assignment => operandNames assignment.operands) ++
    operandNames block.terminal.operands

def LlirMethod.liveSeeds (method : LlirMethod) (globals : List LlirField) : List String :=
  globals.map LlirField.identifier ++ method.blocks.flatMap LlirBlock.liveSeeds

/-- The live sets are the sets above the seeds that are closed under the rules. -/
private theorem isLiveSet_iff {globals : List LlirField} {method : LlirMethod} {live : Set String} :
    IsLiveSet globals method live ↔
      (∀ name ∈ insertAll [] (method.liveSeeds globals), name ∈ live) ∧ ClosedUnder method.liveRules live := by
  constructor
  · rintro ⟨fields, arrays, calls, terminals, assignments⟩
    refine ⟨fun name mem => ?_, fun rule mem trigger name added => ?_⟩
    · rcases List.mem_append.mp ((mem_insertAll.mp mem).resolve_left List.not_mem_nil) with listed | listed
      · obtain ⟨field, inside, rfl⟩ := List.mem_map.mp listed
        exact fields field inside
      · obtain ⟨block, inside, seed⟩ := List.mem_flatMap.mp listed
        rcases List.mem_append.mp seed with either | terminal
        · rcases List.mem_append.mp either with array | called
          · obtain ⟨field, declared, rfl⟩ := List.mem_map.mp array
            exact arrays block inside field (List.mem_filter.mp declared).1 (List.mem_filter.mp declared).2
          · obtain ⟨assignment, call, named⟩ := List.mem_flatMap.mp called
            obtain ⟨field, used, rfl⟩ := mem_operandNames.mp named
            exact calls block inside assignment (List.mem_filter.mp call).1 (List.mem_filter.mp call).2 field used
        · obtain ⟨field, used, rfl⟩ := mem_operandNames.mp terminal
          exact terminals block inside field used
    · obtain ⟨block, inside, listed⟩ := List.mem_flatMap.mp mem
      obtain ⟨assignment, found, rfl⟩ := List.mem_map.mp listed
      obtain ⟨field, used, rfl⟩ := mem_operandNames.mp added
      exact assignments block inside assignment found trigger field used
  · rintro ⟨seeds, closed⟩
    have seed {name : String} (mem : name ∈ method.liveSeeds globals) : name ∈ live :=
      seeds name (mem_insertAll.mpr (.inr mem))
    have block_seed {block : LlirBlock} (inside : block ∈ method.blocks) {name : String} (mem : name ∈ block.liveSeeds) :
        name ∈ live := seed (List.mem_append_right _ (List.mem_flatMap.mpr ⟨block, inside, mem⟩))
    refine ⟨fun field mem => seed (List.mem_append_left _ (List.mem_map_of_mem mem)), fun block inside field mem array => ?_,
      fun block inside assignment mem call field used => ?_, fun block inside field used => ?_,
      fun block inside assignment mem trigger field used => ?_⟩
    · have listed := List.mem_map_of_mem (f := LlirField.identifier) (List.mem_filter.mpr ⟨mem, array⟩)
      exact block_seed inside (List.mem_append_left _ (List.mem_append_left _ listed))
    · have listed : field.identifier ∈ (block.assignments.filter LlirAssignment.isMethodCall).flatMap
          fun assignment => operandNames assignment.operands :=
        List.mem_flatMap.mpr ⟨assignment, List.mem_filter.mpr ⟨mem, call⟩, mem_operandNames.mpr ⟨field, used, rfl⟩⟩
      exact block_seed inside (List.mem_append_left _ (List.mem_append_right _ listed))
    · exact block_seed inside (List.mem_append_right _ (mem_operandNames.mpr ⟨field, used, rfl⟩))
    · have listed : (assignment.destination.identifier, operandNames assignment.operands) ∈ method.liveRules :=
        List.mem_flatMap.mpr ⟨block, inside, List.mem_map.mpr ⟨assignment, mem, rfl⟩⟩
      exact closed _ listed trigger _ (mem_operandNames.mpr ⟨field, used, rfl⟩)

private theorem addLiveVariableFromOperand_eq (live : List String) (operand : LlirOperand) :
    addLiveVariableFromOperand live operand = insertAll live (operandNames [operand]) := by
  cases operand <;> rfl

private theorem foldl_addLiveVariableFromOperand (live : List String) (operands : List LlirOperand) :
    operands.foldl addLiveVariableFromOperand live = insertAll live (operandNames operands) := by
  induction operands generalizing live with
  | nil => rfl
  | cons operand rest ih =>
    have split : operandNames (operand :: rest) = operandNames [operand] ++ operandNames rest :=
      List.filterMap_append (l := [operand])
    rw [List.foldl_cons, ih, addLiveVariableFromOperand_eq, split, insertAll_append]

/-- An assignment adds its operands where its destination is live. -/
private theorem addLiveVariablesFromAssignments_eq (assignment : LlirAssignment) (live : List String) :
    addLiveVariablesFromAssignments assignment live =
      applyRule live (assignment.destination.identifier, operandNames assignment.operands) := by
  unfold addLiveVariablesFromAssignments applyRule
  by_cases known : assignment.destination.identifier ∈ live
  · rw [if_neg (not_not.mpr known), if_pos known]
    cases assignment with
    | unary type source destination => exact foldl_addLiveVariableFromOperand live [source]
    | binary type left right destination => exact foldl_addLiveVariableFromOperand live [left, right]
    | arrayUpdate index value destination => exact foldl_addLiveVariableFromOperand live [index, value]
    | arrayAccess index array destination guarded => exact foldl_addLiveVariableFromOperand live [index]
    | methodCall name arguments destination => exact foldl_addLiveVariableFromOperand live arguments
  · rw [if_pos known, if_neg known]

private theorem addLiveVariablesFromMethodCallArguments_eq (assignment : LlirAssignment) (live : List String) :
    addLiveVariablesFromMethodCallArguments assignment live =
      insertAll live (if assignment.isMethodCall then operandNames assignment.operands else []) := by
  cases assignment with
  | methodCall name arguments destination => exact foldl_addLiveVariableFromOperand live arguments
  | _ => rfl

private theorem addLiveVariablesFromTerminals_eq (block : LlirBlock) (live : List String) :
    addLiveVariablesFromTerminals block live = insertAll live (operandNames block.terminal.operands) := by
  unfold addLiveVariablesFromTerminals
  cases block.terminal with
  | branch branch => exact foldl_addLiveVariableFromOperand live [branch.left, branch.right]
  | llirReturn source => exact foldl_addLiveVariableFromOperand live [source]
  | _ => rfl

private theorem addLiveVariablesFromFields_eq (block : LlirBlock) (live : List String) :
    addLiveVariablesFromFields block live =
      insertAll live ((block.fields.filter LlirField.isArray).map LlirField.identifier) := by
  unfold addLiveVariablesFromFields
  induction block.fields generalizing live with
  | nil => rfl
  | cons field rest ih =>
    rw [List.foldl_cons, ih, List.filter_cons]
    cases field.isArray <;> rfl

private theorem addLiveVariablesFromGlobals_eq (llir : Llir) (live : List String) :
    addLiveVariablesFromGlobals llir live = insertAll live (llir.fields.map LlirField.identifier) := by
  unfold addLiveVariablesFromGlobals insertAll
  rw [List.foldl_map]
  rfl

private theorem foldl_same {α σ : Type} {step : σ → α → σ} {items : List α}
    (same : ∀ item ∈ items, ∀ s, step s item = s) (s : σ) :
    items.foldl step s = s := by
  induction items generalizing s with
  | nil => rfl
  | cons item rest ih =>
    rw [List.foldl_cons, same item List.mem_cons_self, ih fun other mem => same other (List.mem_cons_of_mem _ mem)]

section
variable {llir : Llir} {method : LlirMethod} (distinct : (llir.methods.map LlirMethod.identifier).Nodup)
  (mem : method ∈ llir.methods)
include distinct mem

/-- With distinct names the callbacks do their work in one method. -/
private theorem llirIterate_current {σ : Type} (block : LlirBlock → σ → σ) (assignment : LlirAssignment → σ → σ)
    (terminal : LlirBlock → σ → σ) (s : σ) :
    llirIterate llir (ofCurrentMethod method.identifier block) (ofCurrentMethod method.identifier assignment)
      (ofCurrentMethod method.identifier terminal) s =
    method.blocks.foldl (fun s b => terminal b (b.assignments.foldl (fun s a => assignment a s) (block b s))) s := by
  obtain ⟨before, after, split⟩ := List.append_of_mem mem
  rw [split, List.map_append, List.map_cons, List.nodup_append, List.nodup_cons] at distinct
  obtain ⟨-, ⟨notAfter, -⟩, notBefore⟩ := distinct
  have other (methods : List LlirMethod) (unnamed : method.identifier ∉ methods.map LlirMethod.identifier) (s : σ) :
      methods.foldl (fun s other => other.blocks.foldl (fun s b =>
        ofCurrentMethod method.identifier terminal other b (b.assignments.foldl
          (fun s a => ofCurrentMethod method.identifier assignment other a s)
          (ofCurrentMethod method.identifier block other b s))) s) s = s := by
    refine foldl_same (fun other inside s => foldl_same (fun b _ s => ?_) s) s
    have named : other.identifier ≠ method.identifier := by
      intro same
      exact unnamed (same ▸ List.mem_map_of_mem inside)
    rw [ofCurrentMethod, if_neg named, ofCurrentMethod, if_neg named]
    refine foldl_same (fun a _ s => ?_) s
    rw [ofCurrentMethod, if_neg named]
  rw [llirIterate, split, List.foldl_append, List.foldl_cons, other before fun named => notBefore _ named _ (by simp) rfl,
    other after notAfter]
  simp only [ofCurrentMethod, if_pos]

private theorem liveSetSweep_eq (live : List String) :
    liveSetSweep llir method.identifier live = sweepRules method.liveRules live := by
  have idle : (fun (_ : LlirMethod) (_ : LlirBlock) (s : List String) => s) =
      ofCurrentMethod method.identifier fun _ s => s := by
    funext other block s
    rw [ofCurrentMethod]
    split <;> rfl
  rw [liveSetSweep, idle, llirIterate_current distinct mem, sweepRules, LlirMethod.liveRules, List.foldl_flatMap]
  simp only [List.foldl_map, addLiveVariablesFromAssignments_eq]

/-- The first set holds the seeds. -/
private theorem initialLiveSet_eq :
    initialLiveSet llir method.identifier = insertAll [] (method.liveSeeds llir.fields) := by
  have calls (assignments : List LlirAssignment) (live : List String) :
      assignments.foldl (fun live assignment => addLiveVariablesFromMethodCallArguments assignment live) live =
        insertAll live ((assignments.filter LlirAssignment.isMethodCall).flatMap fun assignment =>
          operandNames assignment.operands) := by
    induction assignments generalizing live with
    | nil => rfl
    | cons assignment rest ih =>
      rw [List.foldl_cons, ih, addLiveVariablesFromMethodCallArguments_eq, List.filter_cons]
      cases assignment.isMethodCall with
      | false => rfl
      | true => rw [if_pos rfl, if_pos rfl, List.flatMap_cons, insertAll_append]
  have blocks (blocks : List LlirBlock) (live : List String) :
      blocks.foldl (fun live block => insertAll live block.liveSeeds) live =
        insertAll live (blocks.flatMap LlirBlock.liveSeeds) := by
    induction blocks generalizing live with
    | nil => rfl
    | cons block rest ih => rw [List.foldl_cons, ih, List.flatMap_cons, insertAll_append]
  rw [initialLiveSet, llirIterate_current distinct mem, LlirMethod.liveSeeds, insertAll_append, ← blocks,
    addLiveVariablesFromGlobals_eq]
  simp only [addLiveVariablesFromFields_eq, addLiveVariablesFromTerminals_eq, calls, LlirBlock.liveSeeds, insertAll_append]

end

/-- The loop ends with the least live set, which depends on the globals and on the method only. -/
theorem liveSetLoop_spec (globals : List LlirField) (method : LlirMethod) : ∃ bound live,
    IsLeast {s : Set String | IsLiveSet globals method s} {name | name ∈ live} ∧
    ∀ llir : Llir, llir.fields = globals → (llir.methods.map LlirMethod.identifier).Nodup → method ∈ llir.methods →
      ∀ n, bound < n → liveSetLoop llir method.identifier n = some live := by
  have nodup : (insertAll [] (method.liveSeeds globals)).Nodup := nodup_insertAll List.nodup_nil _
  have closed : ClosedUnder method.liveRules {name | name ∈ insertAll [] (method.liveSeeds globals) ++
      method.liveRules.flatMap Prod.snd} := fun rule listed _ name added =>
    List.mem_append_right _ (List.mem_flatMap.mpr ⟨rule, listed, added⟩)
  obtain ⟨live, ends, least⟩ := saturate_spec closed _ nodup (List.subset_append_left _ _) (Nat.le_add_left _ _)
  have same : {s : Set String | IsLiveSet globals method s} = {s | (∀ name ∈ insertAll [] (method.liveSeeds globals),
      name ∈ s) ∧ ClosedUnder method.liveRules s} := Set.ext fun s => isLiveSet_iff
  refine ⟨(insertAll [] (method.liveSeeds globals) ++ method.liveRules.flatMap Prod.snd).length, live, same ▸ least, ?_⟩
  rintro llir rfl distinct mem n enough
  have sweeps : liveSetSweep llir method.identifier = sweepRules method.liveRules :=
    funext fun live => liveSetSweep_eq distinct mem live
  rw [liveSetLoop, sweeps, initialLiveSet_eq distinct mem, ends n enough]

def keeps (live : List String) (assignment : LlirAssignment) : Bool :=
  assignment.destination.identifier ∈ live || assignment.isMethodCall

/-- With enough fuel the loop keeps the live assignments. -/
private theorem pruneLoop_eq (live : List String) (left : List LlirAssignment) (done : List LlirAssignment)
    (sized : (done ++ left).length < 2 ^ 32) {n : Nat} (enough : left.length < n) :
    pruneLoop live n (BitVec.ofNat 32 done.length) (done ++ left) = some (done ++ left.filter (keeps live)) := by
  induction left generalizing done n with
  | nil =>
    obtain ⟨n, rfl⟩ : ∃ m, n = m + 1 := ⟨n - 1, by omega⟩
    rw [List.append_nil] at sized ⊢
    have index : (BitVec.ofNat 32 done.length).toNat = done.length := by
      rw [BitVec.toNat_ofNat, Nat.mod_eq_of_lt sized]
    rw [pruneLoop, index, List.getElem?_eq_none le_rfl]
    simp
  | cons assignment left ih =>
    obtain ⟨n, rfl⟩ : ∃ m, n = m + 1 := ⟨n - 1, by omega⟩
    rw [List.length_append, List.length_cons] at sized
    rw [List.length_cons] at enough
    have index : (BitVec.ofNat 32 done.length).toNat = done.length := by
      rw [BitVec.toNat_ofNat, Nat.mod_eq_of_lt (by omega)]
    have read : (done ++ assignment :: left)[done.length]? = some assignment := by simp
    rw [pruneLoop, index, read]
    dsimp only
    by_cases dead : assignment.destination.identifier ∉ live ∧ assignment.isMethodCall = false
    · have gone : keeps live assignment = false := by simp [keeps, dead]
      have shrunk : (done ++ assignment :: left).eraseIdx done.length = done ++ left := by
        rw [List.eraseIdx_append_of_length_le le_rfl, Nat.sub_self, List.eraseIdx_cons_zero]
      -- the index goes back by one and forward again, through -1 at the start of the array
      rw [if_pos dead, BitVec.sub_add_cancel, shrunk, ih done (by rw [List.length_append]; omega) (by omega),
        List.filter_cons_of_neg (by simp [gone])]
    · have stays : keeps live assignment = true := by
        rw [keeps, Bool.or_eq_true, decide_eq_true_eq]
        by_contra neither
        rw [not_or] at neither
        exact dead ⟨neither.1, by simpa using neither.2⟩
      have next : BitVec.ofNat 32 done.length + 1 = BitVec.ofNat 32 (done ++ [assignment]).length := by
        rw [List.length_append, List.length_singleton]
        exact (BitVec.ofNat_add _ 1).symm
      have shift : done ++ assignment :: left = (done ++ [assignment]) ++ left := by simp
      rw [if_neg dead, next, shift, ih (done ++ [assignment]) (by simp; omega) (by omega),
        List.filter_cons_of_pos stays, List.append_assoc, List.singleton_append]

def LlirMethod.prune (method : LlirMethod) (live : List String) : LlirMethod :=
  { method with blocks := method.blocks.map fun block =>
      { block with assignments := block.assignments.filter (keeps live) } }

def LlirMethod.Sized (method : LlirMethod) : Prop := ∀ block ∈ method.blocks, block.assignments.length < 2 ^ 32

def LlirMethod.pruneBound (method : LlirMethod) : Nat := (method.blocks.map fun block => block.assignments.length).sum

theorem le_sum_map {α : Type} (size : α → Nat) {items : List α} {item : α} (mem : item ∈ items) :
    size item ≤ (items.map size).sum := List.single_le_sum (by simp) _ (List.mem_map_of_mem mem)

/-- With enough fuel a method is pruned. -/
private theorem pruneMethod_eq {method : LlirMethod} (sized : method.Sized) (live : List String) {n : Nat}
    (enough : method.pruneBound < n) : pruneMethod live n method.identifier method = some (method.prune live) := by
  have each : ∀ block ∈ method.blocks, pruneBlock live n block =
      some { block with assignments := block.assignments.filter (keeps live) } := by
    intro block mem
    have short : block.assignments.length ≤ method.pruneBound :=
      le_sum_map (fun block => block.assignments.length) mem
    have pruned := pruneLoop_eq live block.assignments [] (sized block mem) (show _ < n by omega)
    rw [List.nil_append, List.nil_append] at pruned
    rw [pruneBlock, show (0 : BitVec 32) = BitVec.ofNat 32 ([] : List LlirAssignment).length from rfl, pruned]
    rfl
  rw [pruneMethod, if_pos rfl, mapM_eq_some each]
  rfl

/-- The pass over one method removes from that method only. -/
private theorem deadCodeEliminationOfCurrentMethod_eq (llir : Llir) {method : LlirMethod}
    (distinct : (llir.methods.map LlirMethod.identifier).Nodup) (mem : method ∈ llir.methods) (sized : method.Sized)
    {n : Nat} (enough : method.pruneBound < n) {live : List String}
    (computed : liveSetLoop llir method.identifier n = some live) :
    deadCodeEliminationOfCurrentMethod n method.identifier llir = some { llir with
      methods := llir.methods.map fun other => if other = method then method.prune live else other } := by
  have each : ∀ other ∈ llir.methods, pruneMethod live n method.identifier other =
      some (if other = method then method.prune live else other) := by
    intro other inside
    by_cases same : other = method
    · rw [if_pos same, same, pruneMethod_eq sized live enough]
    · have named : other.identifier ≠ method.identifier := fun equal =>
        same (List.inj_on_of_nodup_map distinct inside mem equal)
      rw [if_neg same, pruneMethod, if_neg named]
  rw [deadCodeEliminationOfCurrentMethod, computed]
  simp only [Option.bind_eq_bind, Option.bind_some, mapM_eq_some each]
  rfl

private theorem Llir.map_prune_identifier (methods : List LlirMethod) (live : LlirMethod → List String) :
    (methods.map fun method => method.prune (live method)).map LlirMethod.identifier =
      methods.map LlirMethod.identifier := by
  rw [List.map_map]
  rfl

/-- One turn of the iteration over the methods. -/
private theorem passStep_eq (llir : Llir) {done left : List LlirMethod} {method : LlirMethod}
    (distinct : ((done ++ method :: left).map LlirMethod.identifier).Nodup) (sized : method.Sized) {n : Nat}
    (enough : method.pruneBound < n) {live : List String}
    (computed : liveSetLoop { llir with methods := done ++ method :: left } method.identifier n = some live) :
    deadCodeEliminationOfCurrentMethod n method.identifier { llir with methods := done ++ method :: left } =
      some { llir with methods := done ++ method.prune live :: left } := by
  have mem : method ∈ done ++ method :: left := List.mem_append_right _ List.mem_cons_self
  rw [deadCodeEliminationOfCurrentMethod_eq { llir with methods := done ++ method :: left } distinct mem sized
    enough computed]
  rw [List.map_append, List.map_cons, List.nodup_append, List.nodup_cons] at distinct
  obtain ⟨-, ⟨notAfter, -⟩, notBefore⟩ := distinct
  have before : done.map (fun other => if other = method then method.prune live else other) = done := by
    refine (List.map_congr_left fun other inside => ?_).trans (List.map_id done)
    refine if_neg fun same => ?_
    exact notBefore _ (List.mem_map_of_mem inside) _ List.mem_cons_self (congrArg _ same)
  have after : left.map (fun other => if other = method then method.prune live else other) = left := by
    refine (List.map_congr_left fun other inside => ?_).trans (List.map_id left)
    refine if_neg fun same => ?_
    exact notAfter (same ▸ List.mem_map_of_mem inside)
  rw [List.map_append, List.map_cons, if_pos rfl, before, after]

/-- The iteration over the methods, with the live set of each of them. -/
private theorem passLoop_eq (llir : Llir) {n : Nat} (live : LlirMethod → List String) (done left : List LlirMethod)
    (distinct : ((done ++ left).map LlirMethod.identifier).Nodup)
    (sized : ∀ method ∈ left, method.Sized ∧ method.pruneBound < n)
    (computed : ∀ method ∈ left, ∀ other : Llir, other.fields = llir.fields →
      (other.methods.map LlirMethod.identifier).Nodup → method ∈ other.methods →
      liveSetLoop other method.identifier n = some (live method)) :
    (List.range' done.length left.length).foldlM (deadCodeEliminationAt n) { llir with methods := done ++ left } =
    some { llir with methods := done ++ left.map fun method => method.prune (live method) } := by
  induction left generalizing done with
  | nil => rfl
  | cons method left ih =>
    have mem : method ∈ done ++ method :: left := List.mem_append_right _ List.mem_cons_self
    have read : (done ++ method :: left)[done.length]? = some method := by simp
    have turn := passStep_eq llir distinct (sized method List.mem_cons_self).1 (sized method List.mem_cons_self).2
      (computed method List.mem_cons_self _ rfl distinct mem)
    have shift : done ++ method.prune (live method) :: left = (done ++ [method.prune (live method)]) ++ left := by simp
    have named : ((done ++ method.prune (live method) :: left).map LlirMethod.identifier).Nodup := by
      simpa [LlirMethod.prune] using distinct
    have rest := ih (done ++ [method.prune (live method)]) (shift ▸ named)
      (fun other inside => sized other (List.mem_cons_of_mem _ inside))
      (fun other inside => computed other (List.mem_cons_of_mem _ inside))
    rw [List.length_append, List.length_singleton] at rest
    rw [List.length_cons, List.range'_succ, List.foldlM_cons]
    have here : deadCodeEliminationAt n { llir with methods := done ++ method :: left } done.length =
        some { llir with methods := done ++ method.prune (live method) :: left } := by
      rw [deadCodeEliminationAt, read]
      exact turn
    rw [here, Option.bind_eq_bind, Option.bind_some, shift, rest, List.map_cons, List.append_assoc, List.singleton_append]

/-- The whole pass, when the loop over the live set of each method ends within its bound. -/
theorem optimizationDeadCodeElimination_run (llir : Llir) {bound : LlirMethod → Nat} {live : LlirMethod → List String}
    (ends : ∀ method, ∀ other : Llir, other.fields = llir.fields → (other.methods.map LlirMethod.identifier).Nodup →
      method ∈ other.methods → ∀ n, bound method < n → liveSetLoop other method.identifier n = some (live method))
    (distinct : (llir.methods.map LlirMethod.identifier).Nodup) (sized : ∀ method ∈ llir.methods, method.Sized) {n : Nat}
    (enough : ∀ method ∈ llir.methods, bound method < n ∧ method.pruneBound < n) :
    optimizationDeadCodeElimination n llir =
      some { llir with methods := llir.methods.map fun method => method.prune (live method) } := by
  have run := passLoop_eq llir live [] llir.methods distinct
    (fun method mem => ⟨sized method mem, (enough method mem).2⟩)
    (fun method mem other fields names inside => ends method other fields names inside n (enough method mem).1)
  rw [optimizationDeadCodeElimination, List.range_eq_range']
  exact run

theorem LlirMethod.Sized.prune {method : LlirMethod} (sized : method.Sized) (live : List String) :
    (method.prune live).Sized := by
  intro block mem
  obtain ⟨original, inside, rfl⟩ := List.mem_map.mp mem
  exact (List.length_filter_le _ _).trans_lt (sized original inside)

/-- The assignments that are removed do not matter to the live sets. -/
private theorem isLiveSet_prune_inter {globals : List LlirField} {method : LlirMethod} {live : List String}
    (known : IsLiveSet globals method {name | name ∈ live}) {other : Set String}
    (h : IsLiveSet globals (method.prune live) other) :
    IsLiveSet globals method (other ∩ {name | name ∈ live}) := by
  have pruned {block : LlirBlock} (inside : block ∈ method.blocks) :
      { block with assignments := block.assignments.filter (keeps live) } ∈ (method.prune live).blocks :=
    List.mem_map.mpr ⟨block, inside, rfl⟩
  refine ⟨fun field mem => ⟨h.fields field mem, known.fields field mem⟩, fun block inside field mem array => ?_,
    fun block inside assignment mem call field used => ?_, fun block inside field used => ?_,
    fun block inside assignment mem trigger field used => ?_⟩
  · exact ⟨h.arrays _ (pruned inside) field mem array, known.arrays block inside field mem array⟩
  · have stays : keeps live assignment = true := by simp [keeps, call]
    exact ⟨h.calls _ (pruned inside) assignment (List.mem_filter.mpr ⟨mem, stays⟩) call field used,
      known.calls block inside assignment mem call field used⟩
  · exact ⟨h.terminals _ (pruned inside) field used, known.terminals block inside field used⟩
  · have stays : keeps live assignment = true := by
      have trigger : assignment.destination.identifier ∈ live := trigger.2
      simp [keeps, trigger]
    exact ⟨h.assignments _ (pruned inside) assignment (List.mem_filter.mpr ⟨mem, stays⟩) trigger.1 field used,
      known.assignments block inside assignment mem trigger.2 field used⟩

/-- A live set is one of the method without the removed assignments. -/
theorem IsLiveSet.prune {globals : List LlirField} {method : LlirMethod} {other : Set String}
    (h : IsLiveSet globals method other) (live : List String) : IsLiveSet globals (method.prune live) other := by
  refine ⟨h.fields, fun block inside field mem array => ?_, fun block inside assignment mem call field used => ?_,
    fun block inside field used => ?_, fun block inside assignment mem trigger field used => ?_⟩
  all_goals obtain ⟨original, found, rfl⟩ := List.mem_map.mp inside
  · exact h.arrays original found field mem array
  · exact h.calls original found assignment (List.mem_filter.mp mem).1 call field used
  · exact h.terminals original found field used
  · exact h.assignments original found assignment (List.mem_filter.mp mem).1 trigger field used

private theorem isLeast_prune {globals : List LlirField} {method : LlirMethod} {live : List String}
    (least : IsLeast {s : Set String | IsLiveSet globals method s} {name | name ∈ live}) :
    IsLeast {s : Set String | IsLiveSet globals (method.prune live) s} {name | name ∈ live} := by
  refine ⟨least.1.prune live, fun other h name mem => ?_⟩
  exact (least.2 (isLiveSet_prune_inter least.1 h) mem).1

private theorem prune_prune {method : LlirMethod} {live again : List String}
    (same : ∀ name, name ∈ again ↔ name ∈ live) :
    (method.prune live).prune again = method.prune live := by
  have kept : keeps again = keeps live := by
    funext assignment
    simp only [keeps, same]
  rw [LlirMethod.prune, LlirMethod.prune, List.map_map, kept]
  congr 1
  apply List.map_congr_left
  intro block inside
  simp only [Function.comp_apply, List.filter_filter, Bool.and_self]

/-- Every loop over the live set ends with the least one, the pass over a method removes the other assignments of that
method only, and the whole pass changes nothing the second time. -/
theorem optimizationDeadCodeElimination_least (llir : Llir)
    (distinct : (llir.methods.map LlirMethod.identifier).Nodup) (sized : ∀ method ∈ llir.methods, method.Sized) :
    ∃ live : LlirMethod → List String,
      (∀ method ∈ llir.methods, IsLeast {s : Set String | IsLiveSet llir.fields method s} {name | name ∈ live method}) ∧
      ∃ bound, ∀ n, bound < n →
        (∀ method ∈ llir.methods, liveSetLoop llir method.identifier n = some (live method) ∧
          deadCodeEliminationOfCurrentMethod n method.identifier llir = some { llir with
            methods := llir.methods.map fun other => if other = method then method.prune (live method) else other }) ∧
        optimizationDeadCodeElimination n llir =
          some { llir with methods := llir.methods.map fun method => method.prune (live method) } ∧
        optimizationDeadCodeElimination n
            { llir with methods := llir.methods.map fun method => method.prune (live method) } =
          some { llir with methods := llir.methods.map fun method => method.prune (live method) } := by
  choose bound live least ends using liveSetLoop_spec llir.fields
  let pruned : List LlirMethod := llir.methods.map fun method => method.prune (live method)
  refine ⟨live, fun method mem => least method, ((llir.methods ++ pruned).map bound).sum +
    ((llir.methods ++ pruned).map LlirMethod.pruneBound).sum, fun n enough => ?_⟩
  have bounded {method : LlirMethod} (mem : method ∈ llir.methods ++ pruned) : bound method < n ∧ method.pruneBound < n := by
    have first := le_sum_map bound mem
    have second := le_sum_map LlirMethod.pruneBound mem
    omega
  have named : (pruned.map LlirMethod.identifier).Nodup := by
    rw [Llir.map_prune_identifier]
    exact distinct
  refine ⟨fun method mem => ?_, ?_, ?_⟩
  · have enough := bounded (List.mem_append_left pruned mem)
    have computed := ends method llir rfl distinct mem n enough.1
    exact ⟨computed, deadCodeEliminationOfCurrentMethod_eq llir distinct mem (sized method mem) enough.2 computed⟩
  · exact optimizationDeadCodeElimination_run llir ends distinct sized fun method mem =>
      bounded (List.mem_append_left pruned mem)
  · have sized' : ∀ method ∈ pruned, method.Sized := by
      intro method mem
      obtain ⟨original, inside, rfl⟩ := List.mem_map.mp mem
      exact (sized original inside).prune _
    have fixed : pruned.map (fun method => method.prune (live method)) = pruned := by
      rw [List.map_map]
      apply List.map_congr_left
      intro method mem
      exact prune_prune fun name => Set.ext_iff.mp ((least (method.prune (live method))).unique
        (isLeast_prune (least method))) name
    have run := optimizationDeadCodeElimination_run { llir with methods := pruned } ends named sized' fun method mem =>
      bounded (List.mem_append_right llir.methods mem)
    rw [fixed] at run
    exact run

/-- A method that returns the second of two values; the first assignment of its array is removed. -/
def deadLlir : Llir :=
  let dead : LlirField := { identifier := "dead@1", isArray := false, valueCount := 1, values := [], declaration := none }
  let kept : LlirField := { identifier := "kept@1", isArray := false, valueCount := 1, values := [], declaration := none }
  let block : LlirBlock :=
    { id := 0
      fields := [dead, kept]
      assignments := [.unary .move (.literal 1) dead, .unary .move (.literal 2) kept]
      terminal := .llirReturn (.field kept)
      predecessors := [] }
  { fields := [], methods := [{ identifier := "main", arguments := [], blocks := [block] }] }

theorem optimizationDeadCodeElimination_least_deadLlir :
    (deadLlir.methods.map LlirMethod.identifier).Nodup ∧ (∀ method ∈ deadLlir.methods, method.Sized) ∧
    ∃ live : LlirMethod → List String, ∃ bound, ∀ n, bound < n → optimizationDeadCodeElimination n deadLlir =
      some { deadLlir with methods := deadLlir.methods.map fun method => method.prune (live method) } := by
  have distinct : (deadLlir.methods.map LlirMethod.identifier).Nodup := by decide
  have sized : ∀ method ∈ deadLlir.methods, method.Sized := by
    intro method mem block inside
    obtain rfl := List.mem_singleton.mp mem
    obtain rfl := List.mem_singleton.mp inside
    decide
  obtain ⟨live, -, bound, runs⟩ := optimizationDeadCodeElimination_least deadLlir distinct sized
  exact ⟨distinct, sized, live, bound, fun n enough => (runs n enough).2.1⟩

example : (optimizationDeadCodeElimination 4 deadLlir).map (fun llir => llir.methods.map fun method =>
    method.blocks.map fun block => block.assignments.map fun assignment => assignment.destination.identifier) =
    some [[["kept@1"]]] := by decide

end Roast
