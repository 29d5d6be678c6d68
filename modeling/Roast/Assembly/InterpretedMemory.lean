import Roast.Assembly.GlobalInitialization
import Roast.Assembly.Interpreter
import Roast.Assembly.LoweredExpressions

/-! The memory of the interpreter in the stores of the machine: each variable under its storage name. -/
namespace Roast
open Systems

structure WordsHold (store : Store) (field : LlirField) (words : List Word) : Prop where
  length : (words.length : Int) = field.valueCount
  word : ∀ position word, words[position]? = some word → (store field.identifier position).value = word

def ScopeHolds (store : Store) (level : Nat) (fields : List IrField) (bindings : Bindings) : Prop :=
  List.Forall₂ (fun (field : IrField) (binding : String × List Word) => binding.1 = field.identifier ∧
    WordsHold store (field.llirField level) binding.2) fields bindings

def ScopesHold (store : Store) : List (List IrField) → List Bindings → Prop
  | scope :: scopes, bindings :: rest => ScopeHolds store scopes.length scope bindings ∧ ScopesHold store scopes rest
  | [_], [] => True
  | _, _ => False

/-- What the interpreter and the machine share between the methods. -/
structure WorldHolds (program : IrProgram) (memory : Memory) (s : MachineState) : Prop where
  globals : ScopeHolds s.globals 0 program.fields memory.globals
  calls : memory.calls = s.calls
  strays : memory.strays = s.strays

section
variable {store : Store} {field : LlirField} {words : List Word}

theorem WordsHold.of_same (h : WordsHold store field words) {store' : Store}
    (same : store' field.identifier = store field.identifier) : WordsHold store' field words :=
  ⟨h.length, fun position word found => by rw [same]; exact h.word position word found⟩

/-- A store changes the word at its position. -/
theorem WordsHold.set (h : WordsHold store field words) (position : Nat) (word : Word) (origin : Origin) :
    WordsHold (store.set field.identifier position ⟨word, origin⟩) field (words.set position word) := by
  refine ⟨by rw [List.length_set]; exact h.length, fun position' word' found => ?_⟩
  unfold Store.set
  by_cases same : position' = position
  · subst same
    rw [if_pos ⟨rfl, rfl⟩]
    rw [List.getElem?_set_self'] at found
    obtain ⟨old, -, rfl⟩ := Option.map_eq_some_iff.mp found
    rfl
  · rw [if_neg fun equal => same equal.2]
    rw [List.getElem?_set_ne (Ne.symm same)] at found
    exact h.word position' word' found

theorem WordsHold.first (h : WordsHold store field words) (positive : 0 < field.valueCount) : words[0]? ≠ none := by
  have length := h.length
  rw [Ne, List.getElem?_eq_none_iff]
  omega

theorem WordsHold.inBounds (h : WordsHold store field words) (index : Word) :
    InBounds index field ↔ index.toNat < words.length := by
  unfold InBounds
  rw [← h.length]
  exact Int.ofNat_lt

end

section
variable {store store' : Store} {level : Nat} {fields : List IrField} {bindings : Bindings}

theorem ScopeHolds.of_same (h : ScopeHolds store level fields bindings)
    (same : ∀ field ∈ fields, store' (field.llirField level).identifier = store (field.llirField level).identifier) :
    ScopeHolds store' level fields bindings := by
  induction h with
  | nil => exact .nil
  | cons head _ ih =>
    rw [List.forall_mem_cons] at same
    exact .cons ⟨head.1, head.2.of_same same.1⟩ (ih same.2)

/-- A name denotes a field of the scope and its words, or nothing. -/
theorem ScopeHolds.lookup (h : ScopeHolds store level fields bindings) (identifier : String) :
    (∃ field words, fields.find? (fun field => field.identifier == identifier) = some field ∧
      List.lookup identifier bindings = some words ∧ WordsHold store (field.llirField level) words) ∨
    fields.find? (fun field => field.identifier == identifier) = none ∧ List.lookup identifier bindings = none := by
  induction h with
  | nil => exact .inr ⟨rfl, rfl⟩
  | @cons field binding fields bindings head _ ih =>
    obtain ⟨name, words⟩ := binding
    obtain ⟨rfl, holds⟩ := head
    rw [List.find?_cons, List.lookup_cons]
    by_cases same : field.identifier = identifier
    · subst same
      rw [beq_self_eq_true]
      exact .inl ⟨field, words, rfl, rfl, holds⟩
    · rw [beq_false_of_ne same, beq_false_of_ne (Ne.symm same)]
      exact ih

private theorem llirField_identifier_ne {field other : IrField} (name : IsIdentifier field.identifier)
    (name' : IsIdentifier other.identifier) (different : field.identifier ≠ other.identifier) (level : Nat) :
    (field.llirField level).identifier ≠ (other.llirField level).identifier := by
  obtain rfl | positive := Nat.eq_zero_or_pos level
  · exact different
  · exact fun same => different (llirField_identifier_inj positive positive name name' same).2

/-- A word of a variable is changed. -/
theorem ScopeHolds.assign (h : ScopeHolds store level fields bindings) (distinct : (fields.map IrField.identifier).Nodup)
    (ready : ∀ field ∈ fields, field.Ready) {field : IrField} (mem : field ∈ fields) (position : Nat) (word : Word)
    (origin : Origin) :
    ScopeHolds (store.set (field.llirField level).identifier position ⟨word, origin⟩) level fields
      (bindings.assign field.identifier position word) := by
  have members : List.Forall₂ (fun (other : IrField) (binding : String × List Word) => other ∈ fields ∧
      binding.1 = other.identifier ∧ WordsHold store (other.llirField level) binding.2) fields bindings :=
    (List.forall₂_and_left _ _).mpr ⟨fun _ => id, h⟩
  refine List.forall₂_map_right_iff.mpr (members.imp fun other binding hold => ?_)
  obtain ⟨mem', name, holds⟩ := hold
  split
  · rename_i same
    obtain rfl := List.inj_on_of_nodup_map distinct mem' mem (name.symm.trans same)
    exact ⟨name, holds.set position word origin⟩
  · rename_i different
    refine ⟨name, holds.of_same ?_⟩
    have other' := llirField_identifier_ne (ready other mem').identifier (ready field mem).identifier
      (fun same => different (name.trans same)) level
    exact funext fun position' => if_neg fun same => other' same.1

end

section
variable {locals locals' : Store} {scopes : List (List IrField)} {tables : List (List (String × LlirField))}
  {bindings : List Bindings}

/-- Local variables that are not temporaries have not changed. -/
theorem ScopesHold.of_same (h : ScopesHold locals scopes bindings) (hm : Matches scopes tables)
    (same : ∀ level, 0 < level → level < scopes.length → ∀ field : IrField, field.Ready →
      locals' (field.llirField level).identifier = locals (field.llirField level).identifier) :
    ScopesHold locals' scopes bindings := by
  induction hm generalizing bindings with
  | nil => exact h
  | @cons scope scopes _ _ ready _ _ _ ih =>
    cases bindings with
    | nil => cases scopes <;> exact h
    | cons first rest =>
      obtain ⟨head, tail⟩ := h
      have positive : 0 < scopes.length := by
        cases scopes with
        | nil => cases rest <;> cases tail
        | cons => simp
      refine ⟨head.of_same fun field mem => same _ positive (Nat.lt_succ_self _) field (ready field mem), ih tail ?_⟩
      exact fun level positive below => same level positive (Nat.lt_succ_of_lt below)

theorem ScopesHold.kept {k : Nat} (h : ScopesHold locals scopes bindings) (hm : Matches scopes tables)
    (kept : Kept k locals locals') : ScopesHold locals' scopes bindings :=
  h.of_same hm fun level _ _ _ ready => kept _ (llirField_not_temporaryName ready.identifier level k)

/-- A name denotes a local variable and its words, or a global. -/
theorem ScopesHold.find (h : ScopesHold locals scopes bindings) {globals : List IrField}
    (bottom : scopes.getLast? = some globals) {identifier : String} {field : LlirField}
    (found : storage scopes identifier = some field) :
    (∃ words, (bindings.findSome? fun scope => scope.lookup identifier) = some words ∧ WordsHold locals field words ∧
      ¬ IsIdentifier field.identifier) ∨
    (bindings.findSome? fun scope => scope.lookup identifier) = none ∧
      ∃ declaration, globals.find? (fun field => field.identifier == identifier) = some declaration ∧
        field = declaration.llirField 0 := by
  induction scopes generalizing bindings with
  | nil => cases bottom
  | cons scope scopes ih =>
    unfold storage at found
    cases bindings with
    | nil =>
      cases scopes with
      | cons => exact h.elim
      | nil =>
        obtain rfl : scope = globals := by simpa using bottom
        refine .inr ⟨rfl, ?_⟩
        split at found
        · rename_i declaration declared
          exact ⟨declaration, declared, (Option.some.inj found).symm⟩
        · cases found
    | cons first rest =>
      obtain ⟨head, tail⟩ := h
      have positive : 0 < scopes.length := by
        cases scopes with
        | nil => cases rest <;> cases tail
        | cons => simp
      rw [List.findSome?_cons]
      obtain ⟨declaration, words, declared, looked, holds⟩ | ⟨missing, looked⟩ := head.lookup identifier
      · rw [declared] at found
        obtain rfl := Option.some.inj found
        rw [looked]
        exact .inl ⟨words, rfl, holds, llirField_not_identifier positive declaration⟩
      · rw [missing] at found
        rw [looked]
        refine ih tail ?_ found
        rwa [List.getLast?_cons_of_ne_nil (List.ne_nil_of_length_pos positive)] at bottom

/-- Assigning to a name changes the variable that it denotes. -/
theorem ScopesHold.assign (h : ScopesHold locals scopes bindings) (hm : Matches scopes tables) {globals : List IrField}
    (bottom : scopes.getLast? = some globals) {identifier : String} {field : LlirField}
    (found : storage scopes identifier = some field) (position : Nat) (word : Word) (origin : Origin) :
    (∃ bindings', Bindings.assignInnermost identifier position word bindings = some bindings' ∧
      ScopesHold (locals.set field.identifier position ⟨word, origin⟩) scopes bindings' ∧
      ¬ IsIdentifier field.identifier) ∨
    Bindings.assignInnermost identifier position word bindings = none ∧
      ∃ declaration ∈ globals, declaration.identifier = identifier ∧ field = declaration.llirField 0 := by
  induction hm generalizing bindings with
  | nil => cases bottom
  | @cons scope scopes _ _ ready distinct _ rest' ih =>
    unfold storage at found
    cases bindings with
    | nil =>
      cases scopes with
      | cons => exact h.elim
      | nil =>
        obtain rfl : scope = globals := by simpa using bottom
        refine .inr ⟨rfl, ?_⟩
        split at found
        · rename_i declaration declared
          exact ⟨declaration, List.mem_of_find?_eq_some declared, by simpa using List.find?_some declared,
            (Option.some.inj found).symm⟩
        · cases found
    | cons first rest =>
      obtain ⟨head, tail⟩ := h
      have positive : 0 < scopes.length := by
        cases scopes with
        | nil => cases rest <;> cases tail
        | cons => simp
      rw [Bindings.assignInnermost]
      obtain ⟨declaration, words, declared, looked, holds⟩ | ⟨missing, looked⟩ := head.lookup identifier
      · rw [declared] at found
        obtain rfl := Option.some.inj found
        obtain rfl : declaration.identifier = identifier := by simpa using List.find?_some declared
        have mem := List.mem_of_find?_eq_some declared
        rw [looked, Option.isSome_some, if_pos rfl]
        refine .inl ⟨_, rfl, ⟨head.assign distinct ready mem position word origin, ?_⟩,
          llirField_not_identifier positive declaration⟩
        -- the scopes outside have other storage names
        refine tail.of_same rest' fun level positive' below other ready' => funext fun position' => if_neg fun same => ?_
        have level_eq := (llirField_identifier_inj positive' positive ready'.identifier (ready _ mem).identifier same.1).1
        omega
      · rw [missing] at found
        rw [looked, Option.isSome_none, if_neg Bool.false_ne_true]
        rw [List.getLast?_cons_of_ne_nil (List.ne_nil_of_length_pos positive)] at bottom
        obtain ⟨bindings', assigned, holds, isLocal⟩ | ⟨missing', isGlobal⟩ := ih tail bottom found
        · refine .inl ⟨first :: bindings', by rw [assigned]; rfl, ⟨head.of_same fun other mem => ?_, holds⟩, isLocal⟩
          refine funext fun position' => if_neg fun same => ?_
          obtain ⟨declaration, level, below, rfl, ready', -⟩ := rest'.declaration found
          obtain rfl | positive' := Nat.eq_zero_or_pos level
          · exact isLocal ready'.identifier
          · have level_eq := (llirField_identifier_inj positive positive' (ready other mem).identifier ready'.identifier
              same.1).1
            omega
        · exact .inr ⟨by rw [missing']; rfl, isGlobal⟩

end

structure MemoryHolds (program : IrProgram) (scopes : List (List IrField)) (memory : Memory) (s : MachineState)
    (locals : Store) : Prop extends WorldHolds program memory s where
  locals : ScopesHold locals scopes memory.locals

section
variable {program : IrProgram} {llir : Llir} {scopes : List (List IrField)} {tables : List (List (String × LlirField))}
  {memory : Memory} {s : MachineState} {locals : Store} (lowered : Lowered program llir)
  (bottom : scopes.getLast? = some program.fields) {identifier : String} {field : LlirField}
  (found : storage scopes identifier = some field)
include lowered bottom found

/-- The words of a variable are those in the machine. -/
theorem MemoryHolds.find (h : MemoryHolds program scopes memory s locals) :
    ∃ words, memory.find identifier = some words ∧
      WordsHold (if llir.IsGlobal field.identifier then s.globals else locals) field words := by
  rw [Memory.find]
  obtain ⟨words, looked, holds, isLocal⟩ | ⟨missing, declaration, declared, rfl⟩ := h.locals.find bottom found
  · rw [if_neg (lowered.named.not_isGlobal isLocal), looked]
    exact ⟨words, rfl, holds⟩
  · have isGlobal : llir.IsGlobal (declaration.llirField 0).identifier := by
      rw [Llir.IsGlobal, lowered.fields]
      exact List.mem_map_of_mem (List.mem_map_of_mem (List.mem_of_find?_eq_some declared))
    rw [if_pos isGlobal, missing, Option.none_or]
    obtain ⟨other, words, declared', looked, holds⟩ | ⟨missing', -⟩ := h.globals.lookup identifier
    · obtain rfl := Option.some.inj (declared'.symm.trans declared)
      exact ⟨words, looked, holds⟩
    · cases missing'.symm.trans declared

theorem MemoryHolds.global (h : MemoryHolds program scopes memory s locals) (isGlobal : llir.IsGlobal field.identifier) :
    field ∈ llir.fields := by
  obtain ⟨-, -, -, isLocal⟩ | ⟨-, declaration, declared, rfl⟩ := h.locals.find bottom found
  · exact absurd isGlobal (lowered.named.not_isGlobal isLocal)
  · rw [lowered.fields]
    exact List.mem_map_of_mem (List.mem_of_find?_eq_some declared)

/-- A word is stored into a variable. -/
theorem MemoryHolds.assign (h : MemoryHolds program scopes memory s locals) (hm : Matches scopes tables) (frame : Frame)
    (rest : List Frame) (position : Nat) (word : Word) :
    MemoryHolds program scopes (memory.assign identifier position word) (s.store llir frame rest field position word)
      (locals.write llir field position word) := by
  unfold Memory.assign MachineState.store Store.write
  obtain ⟨bindings', assigned, holds, isLocal⟩ | ⟨missing, declaration, mem, rfl, rfl⟩ :=
    h.locals.assign hm bottom found position word (.stored field)
  · rw [if_neg (lowered.named.not_isGlobal isLocal), if_neg (lowered.named.not_isGlobal isLocal), assigned]
    exact ⟨⟨h.globals, h.calls, h.strays⟩, holds⟩
  · have isGlobal : llir.IsGlobal (declaration.llirField 0).identifier := by
      rw [Llir.IsGlobal, lowered.fields]
      exact List.mem_map_of_mem (List.mem_map_of_mem mem)
    rw [if_pos isGlobal, if_pos isGlobal, missing]
    have assigned := h.globals.assign lowered.ready.globals_distinct lowered.ready.typed.fields mem position word
      (.stored (declaration.llirField 0))
    exact ⟨⟨assigned, h.calls, h.strays⟩, h.locals⟩

end

theorem IrField.initialWords_length (field : IrField) : field.initialWords.length = field.arrayLength.toNat := by
  unfold IrField.initialWords
  dsimp only
  rw [List.length_take, List.length_append, List.length_replicate]
  omega

theorem IrField.initialWords_getElem? {field : IrField} {position : Nat} {word : Word}
    (found : field.initialWords[position]? = some word) : field.declaredValue position = word := by
  have inside : position < field.arrayLength.toNat := by
    rw [← field.initialWords_length]
    exact (List.getElem?_eq_some_iff.mp found).1
  unfold IrField.initialWords at found
  dsimp only at found
  rw [List.getElem?_take, if_pos inside] at found
  unfold IrField.declaredValue
  cases initializer : field.initializer with
  | none =>
    simp only [initializer, Option.map_none, Option.getD_none, List.nil_append, List.getElem?_replicate, inside,
      if_true] at found
    exact Option.some.inj found
  | some i =>
    have words : i.literals.map literalToInt64 = i.literals.map IrLiteral.word :=
      List.map_congr_left fun literal _ => literalToInt64_eq literal
    simp only [initializer, Option.map_some, Option.getD_some, List.getElem?_append] at found
    simp only [words, List.getD_eq_getElem?_getD]
    split at found
    · rw [found]
      rfl
    · rename_i outside
      rw [List.getElem?_eq_none (Nat.not_lt.mp outside)]
      rw [List.getElem?_replicate] at found
      split at found
      · exact Option.some.inj found
      · cases found

section
variable {program : IrProgram} {llir : Llir} {scope : List IrField} {scopes : List (List IrField)}
  {tables : List (List (String × LlirField))} {memory : Memory} {s : MachineState} {locals : Store}
  (lowered : Lowered program llir) (nonempty : scopes ≠ []) (hm : Matches (scope :: scopes) tables) {field : IrField}
  (ready : field.Ready) (fresh : field.identifier ∉ scope.map IrField.identifier)

include lowered nonempty hm ready fresh in
/-- A field that is not yet declared is written. -/
theorem MemoryHolds.undeclared (h : MemoryHolds program (scope :: scopes) memory s locals) (frame : Frame)
    (rest : List Frame) (position : Nat) (value : Word) :
    MemoryHolds program (scope :: scopes) memory (s.store llir frame rest (field.llirField scopes.length) position value)
      (locals.write llir (field.llirField scopes.length) position value) := by
  have positive := List.length_pos_iff.mpr nonempty
  have isLocal : ¬ llir.IsGlobal (field.llirField scopes.length).identifier :=
    lowered.named.not_isGlobal (llirField_not_identifier positive field)
  refine ⟨?_, ?_⟩
  · unfold MachineState.store
    rw [if_neg isLocal]
    exact ⟨h.globals, h.calls, h.strays⟩
  · have holds := h.locals
    cases bindings : memory.locals with
    | nil =>
      rw [bindings] at holds
      cases scopes with
      | nil => exact absurd rfl nonempty
      | cons => exact holds
    | cons first rest =>
      rw [bindings] at holds
      cases hm with
      | cons readyScope _ _ rest' =>
        refine ⟨holds.1.of_same fun other mem => ?_, holds.2.of_same rest' fun level positive' below other ready' => ?_⟩
        · refine Store.write_other llir locals _ position value fun same => fresh ?_
          have names := llirField_identifier_inj positive positive (readyScope other mem).identifier ready.identifier same
          exact names.2 ▸ List.mem_map_of_mem mem
        · refine Store.write_other llir locals _ position value fun same => below.ne ?_
          exact (llirField_identifier_inj positive' positive ready'.identifier ready.identifier same).1

/-- A field is declared once all its words are written. -/
theorem MemoryHolds.declare (ready : field.Ready) {outer : Memory} {bindings : Bindings}
    (h : MemoryHolds program (scope :: scopes) (outer.push bindings) s locals)
    (written : ∀ position : Nat, position < field.arrayLength →
      (locals (field.llirField scopes.length).identifier position).value = field.declaredValue position) :
    MemoryHolds program ((scope ++ [field]) :: scopes) (outer.push (bindings ++ [(field.identifier, field.initialWords)]))
      s locals := by
  have length : (field.initialWords.length : Int) = field.arrayLength := by
    rw [field.initialWords_length, Int.toNat_of_nonneg ready.positive.le]
  refine ⟨⟨h.globals, h.calls, h.strays⟩, List.rel_append h.locals.1 (.cons ⟨rfl, length, ?_⟩ .nil), h.locals.2⟩
  intro position word found
  rw [written position ?_, IrField.initialWords_getElem? found]
  have inside : position < field.initialWords.length := (List.getElem?_eq_some_iff.mp found).1
  omega

end

end Roast
