import Roast.Assembly.SafeSteps

/-! Expressions run safely: they read variables that were written, and a value of type `bool` is 0 or 1. -/
namespace Roast
open LlirGenerator Systems

def Owned (arguments : List LlirField) (locals : Store) : List (List IrField) → Prop
  | [] => True
  | scope :: scopes => (scopes ≠ [] → ∀ field ∈ scope, ∀ position : Nat, position < field.arrayLength →
      (locals (field.llirField scopes.length).identifier position).BelongsTo arguments
        (field.llirField scopes.length)) ∧ Owned arguments locals scopes

structure Visible (llir : Llir) (arguments : List LlirField) (locals : Store) (field : LlirField) : Prop where
  old : ∀ k, ¬ TemporaryName k field.identifier
  declared : ∃ declaration ∈ field.declaration, declaration.arrayLength = field.valueCount
  global : llir.IsGlobal field.identifier → field ∈ llir.fields
  written : ¬ llir.IsGlobal field.identifier → ∀ position : Nat, position < field.valueCount →
    (locals field.identifier position).BelongsTo arguments field

section
variable {arguments : List LlirField} {locals locals' : Store} {scopes : List (List IrField)}
  {tables : List (List (String × LlirField))}

theorem Owned.of_same (h : Owned arguments locals scopes) (hm : Matches scopes tables)
    (same : ∀ level, 0 < level → level < scopes.length → ∀ field : IrField, field.Ready →
      locals' (field.llirField level).identifier = locals (field.llirField level).identifier) :
    Owned arguments locals' scopes := by
  induction hm with
  | nil => trivial
  | @cons scope scopes _ _ ready _ _ _ ih =>
    refine ⟨fun nonempty field mem position small => ?_,
      ih h.2 fun level positive below => same level positive (Nat.lt_succ_of_lt below)⟩
    rw [same scopes.length (List.length_pos_iff.mpr nonempty) (Nat.lt_succ_self _) field (ready field mem)]
    exact h.1 nonempty field mem position small

theorem Owned.kept {k : Nat} (h : Owned arguments locals scopes) (hm : Matches scopes tables)
    (kept : Kept k locals locals') : Owned arguments locals' scopes :=
  h.of_same hm fun level _ _ _ ready => kept _ (llirField_not_temporaryName ready.identifier level k)

theorem Owned.suffix {outer : List (List IrField)} (h : Owned arguments locals scopes) (suffix : outer <:+ scopes) :
    Owned arguments locals outer := by
  obtain ⟨inner, rfl⟩ := suffix
  induction inner with
  | nil => exact h
  | cons scope inner ih => exact ih h.2

variable {llir : Llir} {program : IrProgram}

structure Lowered (program : IrProgram) (llir : Llir) : Prop where
  ready : program.Ready
  fields : llir.fields = program.fields.map (IrField.llirField 0)
  methods : llir.methods.map LlirMethod.identifier = program.methods.map IrMethod.identifier

theorem Lowered.named (lowered : Lowered program llir) : llir.Named where
  distinct := by
    rw [lowered.fields, List.map_map]
    exact lowered.ready.globals_distinct
  identifiers := by
    rw [lowered.fields]
    intro field mem
    obtain ⟨original, declared, rfl⟩ := List.mem_map.mp mem
    exact (lowered.ready.typed.fields original declared).identifier

/-- The storage of a name is a visible variable. -/
theorem Owned.visible (lowered : Lowered program llir) (h : Owned arguments locals scopes)
    (hm : Matches scopes tables) (bottom : scopes.getLast? = some program.fields) {identifier : String}
    {field : LlirField} (found : storage scopes identifier = some field) : Visible llir arguments locals field := by
  induction hm with
  | nil => simp [storage] at found
  | @cons scope scopes _ _ ready _ _ _ ih =>
    unfold storage at found
    split at found
    · rename_i declaration declared
      obtain rfl := Option.some.inj found
      have mem := List.mem_of_find?_eq_some declared
      have name := (ready declaration mem).identifier
      refine ⟨llirField_not_temporaryName name _, ⟨declaration, rfl, rfl⟩, fun global => ?_, fun isLocal position small => ?_⟩
      · cases scopes with
        | nil =>
          obtain rfl : scope = program.fields := by simpa using bottom
          exact lowered.fields ▸ List.mem_map_of_mem mem
        | cons scope' scopes =>
          exact absurd global (lowered.named.not_isGlobal (llirField_not_identifier (Nat.succ_pos _) _))
      · cases scopes with
        | nil =>
          obtain rfl : scope = program.fields := by simpa using bottom
          refine absurd ?_ isLocal
          rw [Llir.IsGlobal, lowered.fields]
          exact List.mem_map_of_mem (List.mem_map_of_mem mem)
        | cons scope' scopes => exact h.1 (by simp) declaration mem position small
    · cases scopes with
      | nil => simp [storage] at found
      | cons scope' scopes => exact ih h.2 (by simpa using bottom) found

def OnlyDeclaration (scopes : List (List IrField)) (declaration : IrField) (level : Nat) : Prop :=
  ∀ inner scope outer, scopes = inner ++ scope :: outer → outer.length = level →
    ∀ field ∈ scope, field.identifier = declaration.identifier → field = declaration

theorem OnlyDeclaration.tail {scope : List IrField} {declaration : IrField} {level : Nat}
    (h : OnlyDeclaration (scope :: scopes) declaration level) : OnlyDeclaration scopes declaration level :=
  fun inner scope' outer split => h (scope :: inner) scope' outer (by simp [split])

/-- Storing a word through a variable keeps all variables. -/
theorem Owned.set (h : Owned arguments locals scopes) (hm : Matches scopes tables) {declaration : IrField} {level : Nat}
    (positive : 0 < level) (name : IsIdentifier declaration.identifier)
    (only : OnlyDeclaration scopes declaration level) (position : Nat) (value : Word) :
    Owned arguments (locals.set (declaration.llirField level).identifier position
      ⟨value, .stored (declaration.llirField level)⟩) scopes := by
  induction hm with
  | nil => trivial
  | @cons scope scopes _ _ ready _ _ _ ih =>
    refine ⟨fun nonempty field mem position' small => ?_, ih h.2 only.tail⟩
    unfold Store.set
    split
    · rename_i same
      obtain ⟨rfl, identifier⟩ := llirField_identifier_inj (List.length_pos_iff.mpr nonempty) positive
        (ready field mem).identifier name same.1
      obtain rfl := only [] scope scopes rfl rfl field mem identifier
      exact .inl rfl
    · exact h.1 nonempty field mem position' small

/-- The declaration that a name denotes. -/
theorem Matches.declaration (hm : Matches scopes tables) {identifier : String} {field : LlirField}
    (found : storage scopes identifier = some field) :
    ∃ declaration level, level < scopes.length ∧ field = declaration.llirField level ∧ declaration.Ready ∧
      OnlyDeclaration scopes declaration level := by
  induction hm with
  | nil => simp [storage] at found
  | @cons scope scopes _ _ ready distinct _ _ ih =>
    unfold storage at found
    split at found
    · rename_i declaration declared
      have mem := List.mem_of_find?_eq_some declared
      refine ⟨declaration, scopes.length, by simp, (Option.some.inj found).symm, ready _ mem,
        fun inner scope' outer split length field mem' same => ?_⟩
      cases inner with
      | nil =>
        obtain ⟨rfl, rfl⟩ := List.cons.inj split
        exact List.inj_on_of_nodup_map distinct mem' mem same
      | cons head inner =>
        obtain ⟨rfl, rfl⟩ := List.cons.inj split
        simp at length
        omega
    · obtain ⟨declaration, level, below, rfl, hready, only⟩ := ih found
      refine ⟨declaration, level, by simp; omega, rfl, hready, fun inner scope' outer split length => ?_⟩
      cases inner with
      | nil =>
        obtain ⟨rfl, rfl⟩ := List.cons.inj split
        omega
      | cons head inner => exact only inner scope' outer (List.cons.inj split).2 length

theorem Owned.write (h : Owned arguments locals scopes) (hm : Matches scopes tables) (llir : Llir)
    {identifier : String} {field : LlirField} (found : storage scopes identifier = some field) (position : Nat)
    (value : Word) : Owned arguments (locals.write llir field position value) scopes := by
  obtain ⟨declaration, level, -, rfl, ready, only⟩ := hm.declaration found
  obtain rfl | positive := Nat.eq_zero_or_pos level
  · refine h.of_same hm fun level positive _ field _ => Store.write_other llir locals _ position value fun same => ?_
    exact llirField_not_identifier positive field (same ▸ ready.identifier)
  · unfold Store.write
    split
    · exact h
    · exact h.set hm positive ready.identifier only position value

end

section
variable (llir : Llir) (environment : Environment) (program : IrProgram) (canonical : Prop)

def Resumes (n : Nat) (method : IrMethod) (callers : List Frame) : Prop :=
  ∀ m ≤ n, ∀ s : MachineState, s.status = .running →
    (canonical → s.globals.Canonical ∧ GlobalsOwned llir s.globals) →
    ∀ value, (canonical → method.returnType = .bool → CanonicalWord value) →
      Safe llir environment program canonical m (returnValue llir s callers value)

def enterCall (s : MachineState) (method : LlirMethod) (values : List Word) (callers : List Frame) : MachineState :=
  { s with
    frames := enterMethod environment s.activations method values :: callers
    activations := s.activations + 1 }

/-- Every method can be called for fewer than `n` steps. -/
def CallsSafe (n : Nat) : Prop :=
  ∀ m < n, ∀ method ∈ program.methods, ∃ callee, llir.method method.identifier = some callee ∧
    callee.arguments.length = method.arguments.length ∧
    ∀ (s : MachineState) (values : List Word) (callers : List Frame), s.status = .running →
      (canonical → s.globals.Canonical ∧ GlobalsOwned llir s.globals) →
      (canonical → ∀ frame ∈ callers, frame.locals.Canonical) →
      List.Forall₂ (fun (field : IrField) value => canonical → field.type = .bool → CanonicalWord value)
        method.arguments values →
      Resumes llir environment program canonical m method callers →
      Safe llir environment program canonical m (enterCall environment s callee values callers)

structure ContextFits (c : Context) : Prop where
  bottom : c.scopes.getLast? = some program.fields
  methods : ∀ method ∈ c.methods, method ∈ program.imports ∨ method ∈ program.methods

end

section
variable {program : IrProgram} {llir : Llir} {c : Context} {identifier : String} {method : IrMethod}

/-- An imported method has no code and returns an integer. -/
theorem ContextFits.imported (fits : ContextFits program c) (lowered : Lowered program llir)
    (found : c.method identifier = some method) (imported : method.imported = true) :
    llir.method identifier = none ∧ method.returnType = .int := by
  have name : method.identifier = identifier := by simpa using List.find?_some found
  have mem : method ∈ program.imports := by
    refine (fits.methods method (List.mem_of_find?_eq_some found)).resolve_right fun declared => ?_
    simp [lowered.ready.methods method declared] at imported
  refine ⟨List.find?_eq_none.mpr fun other declared same => ?_, lowered.ready.importTypes method mem⟩
  have lowest : other.identifier ∈ program.methods.map IrMethod.identifier :=
    lowered.methods ▸ List.mem_map_of_mem declared
  obtain ⟨original, declared', same'⟩ := List.mem_map.mp lowest
  refine (((names_nodup program).mp lowered.ready.typed.distinct).2.2.2 original declared').1 ?_
  rw [same', beq_iff_eq.mp same, ← name]
  exact List.mem_map_of_mem mem

theorem ContextFits.declared (fits : ContextFits program c) (lowered : Lowered program llir)
    (found : c.method identifier = some method) (declared : method.imported = false) :
    method ∈ program.methods ∧ method.identifier = identifier := by
  refine ⟨(fits.methods method (List.mem_of_find?_eq_some found)).resolve_left fun imported => ?_,
    by simpa using List.find?_some found⟩
  simp [lowered.ready.imports method imported] at declared

end

structure FreshTemporary (llir : Llir) (g : LlirGenerator) (field : LlirField) : Prop where
  name : TemporaryName g.temporaryCounter field.identifier
  old : ¬ TemporaryName (g.temporaryCounter + 1) field.identifier
  isLocal : ¬ llir.IsGlobal field.identifier
  undeclared : ¬ field.IsBool

theorem newTemporary_fresh {llir : Llir} (named : llir.Named) (g : LlirGenerator) {character : Char}
    (kind : character = '$' ∨ character = '#') : FreshTemporary llir g (g.newTemporary character).1 := by
  have name : TemporaryName g.temporaryCounter (g.newTemporary character).1.identifier :=
    ⟨g.temporaryCounter, le_rfl, character, kind, rfl⟩
  refine ⟨name, not_temporaryName_of_lt (Nat.lt_succ_self _) character,
    named.not_isGlobal (temporaryName_not_identifier name), ?_⟩
  rintro ⟨declaration, mem, -⟩
  cases mem

theorem newLocalTemporary_fresh {llir : Llir} (named : llir.Named) (g : LlirGenerator) :
    FreshTemporary llir g g.newLocalTemporary.1 := newTemporary_fresh named g (.inl rfl)

theorem FreshTemporary.fits {llir : Llir} {g : LlirGenerator} {field : LlirField} {canonical : Prop} {k : Nat}
    {type : IrDataType} {value : Word} (fresh : FreshTemporary llir g field) (locals : Store)
    (hk : g.temporaryCounter + 1 ≤ k) (bool : canonical → type = .bool → CanonicalWord value) :
    OperandFits llir canonical (locals.write llir field 0 value) k type (.field field) := by
  refine ⟨fun new => fresh.old (new.mono hk), fresh.isLocal, ?_, ?_⟩
  · rw [Store.write_self fresh.isLocal]
  · rw [Store.write_self fresh.isLocal]
    exact bool

/-- Comparisons give 0 or 1. -/
theorem canonicalWord_of_operator {operator : IrBinaryOperator} {operand : IrDataType}
    (typed : OperatorTyped operator operand .bool) (shortCircuit : ¬ (operator = .or ∨ operator = .and))
    {left right value : Word} (result : (irOperatorToAssignmentType operator).apply left right = some value) :
    CanonicalWord value := by
  cases typed with
  | order h =>
    simp only [List.mem_cons, List.not_mem_nil, or_false] at h
    obtain rfl | rfl | rfl | rfl := h <;> obtain rfl := Option.some.inj result <;> exact canonicalWord_boolWord _
  | logical h =>
    simp only [List.mem_cons, List.not_mem_nil, or_false] at h
    exact absurd h shortCircuit
  | equality h _ =>
    simp only [List.mem_cons, List.not_mem_nil, or_false] at h
    obtain rfl | rfl := h <;> obtain rfl := Option.some.inj result <;> exact canonicalWord_boolWord _

section
variable {llir : Llir} {canonical : Prop} {activation : Activation}

theorem operandsOwned_pair {frame : Frame} {locals : Store} {k k' : Nat} {type type' : IrDataType}
    {left right : LlirOperand} (same : frame.locals = locals) (hl : OperandFits llir canonical locals k type left)
    (hr : OperandFits llir canonical locals k' type' right) : OperandsOwned llir frame [left, right] := by
  refine operandsOwned_of fun field mem _ => ?_
  rw [same]
  obtain mem | mem := List.mem_cons.mp mem
  · exact hl.stored field mem
  · exact hr.stored field (List.mem_singleton.mp mem)

/-- The value of a boolean variable. -/
private theorem Visible.canonical_cell {locals : Store} {field : LlirField} {block index : Nat} {s : MachineState}
    (visible : Visible llir activation.method.arguments locals field)
    (at' : AtPoint llir canonical activation block index s locals) (asked : canonical) (bool : field.IsBool)
    {position : Nat} (small : position < field.valueCount) (frame : Frame) (same : frame.locals = locals) :
    CanonicalWord (s.cell llir frame field position).value := by
  unfold MachineState.cell
  split
  · rename_i global
    have origin := (at'.globals asked).2 field (visible.global global) position small
    exact (at'.globals asked).1 _ _ field (.inr origin) bool
  · rename_i isLocal
    rw [same]
    exact (visible.written isLocal position small).canonical (at'.locals asked _ _) bool

theorem operandsOwned_single {frame : Frame} {locals : Store} {k : Nat} {type : IrDataType} {operand : LlirOperand}
    (same : frame.locals = locals) (h : OperandFits llir canonical locals k type operand) :
    OperandsOwned llir frame [operand] := by
  refine operandsOwned_of fun field mem _ => ?_
  rw [same]
  exact h.stored field (List.mem_singleton.mp mem)

/-- Reading a visible variable. -/
theorem Visible.operandsOwned {locals : Store} {field : LlirField} (valid : activation.Valid llir)
    (visible : Visible llir activation.method.arguments locals field) (positive : 0 < field.valueCount)
    {block index : Nat} : OperandsOwned llir (activation.frame block index locals) [.field field] := by
  intro method found other mem isLocal
  obtain rfl := LlirOperand.field.inj (List.mem_singleton.mp mem)
  obtain rfl := Option.some.inj (valid.found.symm.trans found)
  exact visible.written isLocal 0 positive

theorem Visible.kept {arguments : List LlirField} {locals locals' : Store} {field : LlirField} {k : Nat}
    (visible : Visible llir arguments locals field) (kept : Kept k locals locals') :
    Visible llir arguments locals' field :=
  ⟨visible.old, visible.declared, visible.global, fun isLocal position small => by
    rw [kept _ (visible.old k)]
    exact visible.written isLocal position small⟩

end

/-- Storing into another variable leaves an operand as it is. -/
theorem OperandFits.write {llir : Llir} {canonical : Prop} {locals : Store} {k : Nat} {type : IrDataType}
    {operand : LlirOperand} (h : OperandFits llir canonical locals k type operand) (destination : LlirField)
    (other : ∀ field, operand = .field field → field.identifier ≠ destination.identifier) (value : Word) :
    OperandFits llir canonical (locals.write llir destination 0 value) k type operand := by
  cases operand with
  | field field =>
    obtain ⟨old, isLocal, origin, bool⟩ := h
    have same := Store.write_other llir locals destination 0 value (other field rfl)
    exact ⟨old, isLocal, by rwa [same], by rwa [same]⟩
  | literal value => exact h
  | string string => exact h

theorem forall₂_left_of_mem {α β : Type*} {R : α → β → Prop} {as : List α} {bs : List β} (h : List.Forall₂ R as bs)
    {b : β} (mem : b ∈ bs) : ∃ a, R a b := by
  induction h with
  | nil => cases mem
  | cons head _ ih =>
    obtain rfl | mem := List.mem_cons.mp mem
    · exact ⟨_, head⟩
    · exact ih mem

theorem operatorTyped_shortCircuit {operator : IrBinaryOperator} {operand result : IrDataType}
    (typed : OperatorTyped operator operand result) (shortCircuit : operator = .or ∨ operator = .and) :
    operand = .bool ∧ result = .bool := by
  obtain rfl | rfl := shortCircuit <;> cases typed <;> simp_all

/-- The value of an expression is in a temporary that was made for it. -/
theorem generateExpression_field (g : LlirGenerator) (expression : IrExpression) :
    ∃ field, (generateExpression g expression).1 = .field field ∧ TemporaryName g.temporaryCounter field.identifier := by
  have fresh (g g' : LlirGenerator) (h : g.temporaryCounter ≤ g'.temporaryCounter) {character : Char}
      (kind : character = '$' ∨ character = '#') : TemporaryName g.temporaryCounter (g'.newTemporary character).1.identifier :=
    ⟨g'.temporaryCounter, h, character, kind, rfl⟩
  cases expression with
  | binary operator left right =>
    unfold generateExpression
    split
    · exact ⟨_, rfl, fresh g g le_rfl (.inr rfl)⟩
    · exact ⟨_, rfl, fresh g _ ((generateExpression_grows g left).trans
        (generateExpression_grows _ right)).temporaryCounter (.inl rfl)⟩
  | not expression => exact ⟨_, rfl, fresh g _ (generateExpression_grows g expression).temporaryCounter (.inl rfl)⟩
  | negate expression => exact ⟨_, rfl, fresh g _ (generateExpression_grows g expression).temporaryCounter (.inl rfl)⟩
  | len identifier length => exact ⟨_, rfl, fresh g g le_rfl (.inl rfl)⟩
  | methodCall identifier arguments => exact ⟨_, rfl, fresh g g le_rfl (.inl rfl)⟩
  | literal literal => exact ⟨_, rfl, fresh g _ (assert_grows g (literalInRange literal)).temporaryCounter (.inl rfl)⟩
  | location location =>
    cases location with
    | scalar node identifier =>
      exact ⟨_, rfl, fresh g _ (lookup_grows g (.scalar node identifier)).temporaryCounter (.inl rfl)⟩
    | element node identifier index =>
      exact ⟨_, rfl, fresh g _ (lookup_grows g (.element node identifier index)).temporaryCounter (.inl rfl)⟩

theorem lookup_currentBlock (g : LlirGenerator) (location : IrLocation) :
    (g.lookup location).2.currentBlock = g.currentBlock := by
  unfold LlirGenerator.lookup
  split <;> rfl

theorem lookup_temporaryCounter (g : LlirGenerator) (location : IrLocation) :
    (g.lookup location).2.temporaryCounter = g.temporaryCounter := by
  unfold LlirGenerator.lookup
  split <;> rfl

theorem assert_currentBlock (g : LlirGenerator) (condition : Prop) [Decidable condition] :
    (g.assert condition).currentBlock = g.currentBlock := by
  unfold LlirGenerator.assert
  split <;> rfl

theorem literalToInt64_bool {literal : IrLiteral} (ready : literal.Ready) (bool : literal.type = .bool)
    (positive : literal.negate = false) : CanonicalWord (literalToInt64 literal) := by
  have value : literalToInt64 literal = literal.value := by simp [literalToInt64, positive]
  rw [value]
  exact ready.bool bool

section
variable {llir : Llir} {environment : Environment} {program : IrProgram} {canonical : Prop}
  {activation : Activation} (valid : activation.Valid llir)
  (callers : canonical → ∀ frame ∈ activation.callers, frame.locals.Canonical) (lowered : Lowered program llir)
  {N : Nat} (calls : CallsSafe llir environment program canonical N) {c : Context} (fits : ContextFits program c)

/-- The activation is safe from every state in which the operand is evaluated. -/
def EvaluatesSafely (llir : Llir) (environment : Environment) (program : IrProgram) (canonical : Prop)
    (activation : Activation) (n k : Nat) (g : LlirGenerator) (locals : Store) (type : IrDataType)
    (operand : LlirOperand) : Prop :=
  ∀ m ≤ n, ∀ s' locals', AtEnd llir canonical activation g s' locals' → Kept k locals locals' →
    OperandFits llir canonical locals' g.temporaryCounter type operand →
    Safe llir environment program canonical m s'

def ImportedArgumentsEvaluate (llir : Llir) (environment : Environment) (program : IrProgram) (canonical : Prop)
    (activation : Activation) (n k : Nat) (g : LlirGenerator) (locals : Store) (operands : List LlirOperand) : Prop :=
  ∀ m ≤ n, ∀ s' locals', AtEnd llir canonical activation g s' locals' → Kept k locals locals' →
    (∀ field, .field field ∈ operands → (locals' field.identifier 0).origin = .stored field) →
    Safe llir environment program canonical m s'

def ArgumentsEvaluate (llir : Llir) (environment : Environment) (program : IrProgram) (canonical : Prop)
    (activation : Activation) (n k : Nat) (g : LlirGenerator) (locals : Store) (fields : List IrField)
    (operands : List LlirOperand) : Prop :=
  ∀ m ≤ n, ∀ s' locals', AtEnd llir canonical activation g s' locals' → Kept k locals locals' →
    List.Forall₂ (fun (field : IrField) operand =>
      OperandFits llir canonical locals' g.temporaryCounter field.type operand) fields operands →
    Safe llir environment program canonical m s'

theorem EvaluatesSafely.after {n m k k' : Nat} {g : LlirGenerator} {locals locals' : Store} {type : IrDataType}
    {operand : LlirOperand} (next : EvaluatesSafely llir environment program canonical activation n k g locals type operand)
    (hm : m ≤ n) (kept : Kept k locals locals') (hk : k ≤ k') :
    EvaluatesSafely llir environment program canonical activation m k' g locals' type operand :=
  fun m' hm' s' locals'' at'' kept' fit => next m' (hm'.trans hm) s' locals'' at'' (kept.trans kept' hk) fit

include valid callers lowered

/-- A unary operation into a new temporary. -/
private theorem safe_temporary_unary {g : LlirGenerator} {type : LlirUnaryType} {source : LlirOperand}
    (result : IrDataType) (begins : (g.newLocalTemporary.2.addAssignment (.unary type source g.newLocalTemporary.1)).Begins
      activation.blocks) {n : Nat} {s : MachineState} {locals : Store}
    (at' : AtEnd llir canonical activation g s locals)
    (operands : OperandsOwned llir (activation.frameAt g locals) [source])
    (bool : canonical → result = .bool →
      CanonicalWord (type.apply (s.operand llir environment (activation.frameAt g locals) source)))
    (next : EvaluatesSafely llir environment program canonical activation n g.temporaryCounter
      (g.newLocalTemporary.2.addAssignment (.unary type source g.newLocalTemporary.1)) locals result
      (.field g.newLocalTemporary.1)) : Safe llir environment program canonical n s := by
  have fresh := newLocalTemporary_fresh lowered.named g
  exact safe_unary valid callers lowered.named begins at' operands
    (fun _ _ isBool => absurd isBool fresh.undeclared) (fun global => absurd global fresh.isLocal)
    fun m hm s' at'' => next m hm.le s' _ at'' (Kept.write fresh.name _ _ _) (fresh.fits _ le_rfl bool)

/-- A value is moved into a variable and tested. -/
private theorem safe_choose {g : LlirGenerator} {comparison : LlirBranchType} {operand : LlirOperand}
    {destination : LlirField}
    (begins : ((g.addMove operand destination).branchNew comparison false operand (.literal 1)).2.Begins
      activation.blocks) {n k : Nat} {s : MachineState} {locals : Store}
    (at' : AtEnd llir canonical activation g s locals) (fit : OperandFits llir canonical locals k .bool operand)
    (other : ∀ field, operand = .field field → field.identifier ≠ destination.identifier)
    (isLocal : ¬ llir.IsGlobal destination.identifier) (undeclared : ¬ destination.IsBool)
    (next : ∀ m < n, ∀ s' value, (canonical → CanonicalWord value) →
      ∀ block, block = g.blockCounter ∨ block = g.blockCounter + 1 →
        AtPoint llir canonical activation block 0 s' (locals.write llir destination 0 value) →
        Safe llir environment program canonical m s') : Safe llir environment program canonical n s := by
  refine safe_unary valid callers lowered.named ((branchNew_grows _ _ _ _ _).begins_of begins) at'
    (operandsOwned_single rfl fit) (fun _ _ isBool => absurd isBool undeclared)
    (fun global => absurd global isLocal) fun m hm s₁ at₁ => ?_
  have bool (asked : canonical) : CanonicalWord
      (s.operand llir environment (activation.frameAt g locals) operand) :=
    fit.bool_value asked rfl environment s _ _
  have operands (value : Word) : OperandsOwned llir (activation.frameAt (g.addMove operand destination)
      (locals.write llir destination 0 value)) [operand, .literal 1] :=
    operandsOwned_of fun field mem _ => (fit.write destination other value).stored field (by simpa using mem)
  refine safe_branch valid callers begins at₁ (operands _) (fun unsigned => by cases unsigned)
    (fun _ m' hm' s₂ at₂ => next m' (hm'.trans hm) s₂ _ bool _ (.inl rfl) at₂)
    fun _ m' hm' s₂ at₂ => next m' (hm'.trans hm) s₂ _ bool _ (.inr rfl) at₂

/-- An unguarded element is read into a temporary. -/
private theorem safe_access {g : LlirGenerator} {index : LlirOperand} {array destination : LlirField}
    (begins : (g.addAssignment (.arrayAccess index array destination false)).Begins activation.blocks) {n k : Nat}
    {s : MachineState} {locals : Store} (at' : AtEnd llir canonical activation g s locals)
    (fit : OperandFits llir canonical locals k .int index)
    (visible : Visible llir activation.method.arguments locals array)
    (isLocal : ¬ llir.IsGlobal destination.identifier) (undeclared : ¬ destination.IsBool)
    (next : ∀ m < n, ∀ s' value, (canonical → array.IsBool → CanonicalWord value) →
      AtEnd llir canonical activation (g.addAssignment (.arrayAccess index array destination false)) s'
        (locals.write llir destination 0 value) → Safe llir environment program canonical m s') :
    Safe llir environment program canonical n s := by
  refine safe_assignment valid callers begins at' ⟨operandsOwned_single rfl fit, ?_, by simp, by simp, ?_⟩
    fun m hm keeps => ?_
  · rintro _ ⟨rfl⟩
    exact visible.declared
  · rintro _ _ _ _ ⟨rfl, rfl, rfl, rfl⟩ inside owned method found
    obtain rfl := Option.some.inj (valid.found.symm.trans found)
    exact visible.written owned _ inside
  · have stored (s' : MachineState) (value : Word) (at₁ : AtEnd llir canonical activation g s' locals) :
        AtEnd llir canonical activation (g.addAssignment (.arrayAccess index array destination false))
          (s'.store llir (activation.frameAt g locals) activation.callers destination 0 value)
          (locals.write llir destination 0 value) :=
      at₁.store lowered.named _ 0 (fun _ isBool => absurd isBool undeclared) fun global => absurd global isLocal
    unfold stepAssignment
    dsimp only
    split
    · rename_i inside
      refine next m hm _ _ (fun asked bool => ?_) (stored _ _ at')
      exact visible.canonical_cell at' asked bool inside _ rfl
    · rename_i outside
      refine next m hm _ _ (fun asked bool => ?_) (stored _ _ ⟨at'.status, at'.frames, at'.globals, at'.locals⟩)
      exact absurd ((keeps asked).access index array destination false rfl bool) outside

/-- A call whose operands are evaluated. -/
private theorem safe_call {N : Nat} (calls : CallsSafe llir environment program canonical N) {g : LlirGenerator}
    {identifier : String} {operands : List LlirOperand} {destination : LlirField} (returnType : IrDataType)
    (begins : (g.addAssignment (.methodCall identifier operands destination)).Begins activation.blocks)
    {n : Nat} (hn : n ≤ N) {s : MachineState} {locals : Store} (at' : AtEnd llir canonical activation g s locals)
    (owned : OperandsOwned llir (activation.frameAt g locals) operands)
    (target : llir.method identifier = none ∧ returnType = .int ∨
      ∃ method ∈ program.methods, method.identifier = identifier ∧ method.returnType = returnType ∧
        List.Forall₂ (fun (field : IrField) operand =>
          OperandFits llir canonical locals g.temporaryCounter field.type operand) method.arguments operands)
    (isLocal : ¬ llir.IsGlobal destination.identifier) (undeclared : ¬ destination.IsBool)
    (next : ∀ m < n, ∀ s' value, (canonical → returnType = .bool → CanonicalWord value) →
      AtEnd llir canonical activation (g.addAssignment (.methodCall identifier operands destination)) s'
        (locals.write llir destination 0 value) → Safe llir environment program canonical m s') :
    Safe llir environment program canonical n s := by
  refine safe_assignment valid callers begins at' ⟨owned, by simp [LlirAssignment.array], by simp, by simp, by simp⟩ fun m hm _ => ?_
  -- what happens when the call returns a value
  have returned (s' : MachineState) (at₁ : AtEnd llir canonical activation g s' locals) (k : Nat) (hk : k < n)
      (value : Word) (bool : canonical → returnType = .bool → CanonicalWord value) :
      Safe llir environment program canonical k
        (s'.store llir (activation.frameAt g locals) activation.callers destination 0 value) :=
    next k hk _ value bool (at₁.store lowered.named _ 0 (fun _ isBool => absurd isBool undeclared)
      fun global => absurd global isLocal)
  obtain ⟨missing, rfl⟩ | ⟨method, mem, rfl, rfl, arguments⟩ := target
  · simp only [stepAssignment, callMethod, missing]
    split
    · exact returned _ (at'.withCalls _) m hm _ fun _ int => by cases int
    · refine at'.safe_stopped callers ?_ ?_ ?_ m <;> simp
    · refine at'.safe_stopped callers ?_ ?_ ?_ m <;> simp
  · obtain ⟨callee, found, length, enter⟩ := calls m (hm.trans_le hn) method mem
    have counted : callee.arguments.length =
        (operands.map (s.operand llir environment (activation.frameAt g locals))).length := by
      rw [length, arguments.length_eq, List.length_map]
    simp only [stepAssignment, callMethod, found, counted, if_true]
    refine enter { s with calls := s.calls ++ [(method.identifier, operands.map _)] } _ _ at'.status at'.globals ?_ ?_
      fun k hk s' status globals value bool => ?_
    · exact fun asked => List.forall_mem_cons.mpr ⟨at'.locals asked, callers asked⟩
    · refine List.forall₂_map_right_iff.mpr (arguments.imp fun field operand fit asked bool => ?_)
      exact fit.bool_value asked bool environment s _ _
    · have suspended : (activation.frameAt g locals).assignment llir =
          some (.methodCall method.identifier operands destination) := by
        obtain ⟨block, code, found⟩ := valid.assignment locals begins
        rw [Frame.assignment_eq, code]
        exact found
      simp only [returnValue, suspended]
      exact returned { s' with frames := activation.frameAt g locals :: activation.callers }
        ⟨status, rfl, globals, at'.locals⟩ k (hk.trans_lt hm) value bool

include calls fits in
/-- A call, once its arguments are known to be evaluated safely. -/
theorem safe_methodCall (g : LlirGenerator) {identifier : String} {arguments : IrArguments} {type : IrDataType}
    (typed : CallTyped readyRules c identifier arguments type)
    (begins : (generateMethodCall g identifier arguments).2.Begins activation.blocks) {n : Nat} (hn : n ≤ N)
    {s : MachineState} {locals : Store}
    (imported : ImportedArgumentsTyped readyRules c arguments →
      ImportedArgumentsEvaluate llir environment program canonical activation n g.newLocalTemporary.2.temporaryCounter
        (generateArguments g.newLocalTemporary.2 arguments).2 locals (generateArguments g.newLocalTemporary.2 arguments).1 →
      Safe llir environment program canonical n s)
    (declared : ∀ fields, ArgumentsTyped readyRules c fields arguments →
      ArgumentsEvaluate llir environment program canonical activation n g.newLocalTemporary.2.temporaryCounter
        (generateArguments g.newLocalTemporary.2 arguments).2 locals fields
        (generateArguments g.newLocalTemporary.2 arguments).1 → Safe llir environment program canonical n s)
    (next : EvaluatesSafely llir environment program canonical activation n g.temporaryCounter
      (generateMethodCall g identifier arguments).2 locals type (generateMethodCall g identifier arguments).1) :
    Safe llir environment program canonical n s := by
  have fresh := newLocalTemporary_fresh lowered.named g
  have counter := (generateArguments_grows g.newLocalTemporary.2 arguments).temporaryCounter
  -- the value that the call returns is in the temporary
  have returned {m : Nat} (hmn : m ≤ n) {locals₁ : Store}
      (kept : Kept g.newLocalTemporary.2.temporaryCounter locals locals₁) (k : Nat) (hk : k < m) (s₂ : MachineState)
      (value : Word) (bool : canonical → type = .bool → CanonicalWord value)
      (at₂ : AtEnd llir canonical activation (generateMethodCall g identifier arguments).2 s₂
        (locals₁.write llir g.newLocalTemporary.1 0 value)) : Safe llir environment program canonical k s₂ :=
    next.after hmn ((Kept.refl _ _).trans kept (newLocalTemporary_grows g).temporaryCounter) le_rfl k hk.le s₂ _ at₂
      (Kept.write fresh.name _ _ _) (fresh.fits _ counter bool)
  cases typed with
  | imported unshadowed found flag h =>
    obtain ⟨missing, int⟩ := fits.imported lowered found flag
    refine imported h fun m hmn s₁ locals₁ at₁ kept stored => ?_
    exact safe_call valid callers lowered calls _ begins (hmn.trans hn) at₁
      (operandsOwned_of fun f mem _ => stored f mem) (.inl ⟨missing, int⟩) fresh.isLocal fresh.undeclared
      (returned hmn kept)
  | @declared _ _ method unshadowed found flag h =>
    obtain ⟨mem, name⟩ := fits.declared lowered found flag
    refine declared _ h fun m hmn s₁ locals₁ at₁ kept stored => ?_
    refine safe_call valid callers lowered calls _ begins (hmn.trans hn) at₁ (operandsOwned_of fun f mem _ => ?_)
      (.inr ⟨method, mem, name, rfl, stored⟩) fresh.isLocal fresh.undeclared (returned hmn kept)
    obtain ⟨field, fit⟩ := forall₂_left_of_mem stored mem
    exact fit.stored f rfl

omit valid callers lowered

mutual

/-- Evaluating an expression is safe if what follows is. -/
theorem generateExpression_safe (valid : activation.Valid llir)
    (callers : canonical → ∀ frame ∈ activation.callers, frame.locals.Canonical)
    (lowered : Lowered program llir) (calls : CallsSafe llir environment program canonical N)
    (fits : ContextFits program c) (g : LlirGenerator) (hm : Matches c.scopes g.symbolTable)
    (expression : IrExpression) {type : IrDataType} (typed : ExpressionTyped readyRules c expression type)
    (begins : (generateExpression g expression).2.Begins activation.blocks) {n : Nat} (hn : n ≤ N)
    {s : MachineState} {locals : Store} (at' : AtEnd llir canonical activation g s locals)
    (owned : Owned activation.method.arguments locals c.scopes)
    (next : EvaluatesSafely llir environment program canonical activation n g.temporaryCounter
      (generateExpression g expression).2 locals type (generateExpression g expression).1) :
    Safe llir environment program canonical n s := by
  cases expression with
  | binary operator left right =>
    cases typed with
    | binary op hl hr =>
      by_cases shortCircuit : operator = .or ∨ operator = .and
      · have unfolded : generateExpression g (.binary operator left right) =
            let first := generateExpression g.newNonLocalTemporary.2 left
            let branched := (first.2.addMove first.1 g.newNonLocalTemporary.1).branchNew
              (if operator = .or then .equal else .notEqual) false first.1 (.literal 1)
            let second := generateExpression branched.2 right
            (.field g.newNonLocalTemporary.1,
              (second.2.addMove second.1 g.newNonLocalTemporary.1).jumpTo branched.1 branched.1) := by
          rw [generateExpression, if_pos shortCircuit]
        rw [unfolded] at begins next
        obtain ⟨rfl, rfl⟩ := operatorTyped_shortCircuit op shortCircuit
        have fresh : FreshTemporary llir g g.newNonLocalTemporary.1 := newTemporary_fresh lowered.named g (.inr rfl)
        have followsStart : g.Follows False g.newNonLocalTemporary.2 [] := newNonLocalTemporary_follows g
        have matchesStart := followsStart.matchesScopes hm
        have followsLeft : g.newNonLocalTemporary.2.Follows False _ _ := generateExpression_follows _ matchesStart left hl
        have counter : g.temporaryCounter + 1 ≤ _ :=
          (generateExpression_grows g.newNonLocalTemporary.2 left).temporaryCounter
        obtain ⟨source, value, recent⟩ := generateExpression_field g.newNonLocalTemporary.2 left
        dsimp only at begins next
        have evaluateLeft := generateExpression_safe valid callers lowered calls fits g.newNonLocalTemporary.2
          matchesStart left hl
        generalize generateExpression g.newNonLocalTemporary.2 left = first at *
        have followsBranch := (followsLeft.andThen (addMove_follows first.2 first.1 g.newNonLocalTemporary.1)).andThen
          (branchNew_follows _ (if operator = .or then .equal else .notEqual) false first.1 (.literal 1))
        have growsBranch := (addMove_grows first.2 first.1 g.newNonLocalTemporary.1).trans
          (branchNew_grows _ (if operator = .or then .equal else .notEqual) false first.1 (.literal 1))
        have beginsRight := (addMove_grows _ _ _).begins_of ((jumpTo_grows _ _ _).begins_of begins)
        have beginsBranch := (generateExpression_grows _ right).begins_of beginsRight
        have growsRight := (generateExpression_grows ((first.2.addMove first.1 g.newNonLocalTemporary.1).branchNew
          (if operator = .or then .equal else .notEqual) false first.1 (.literal 1)).2 right).temporaryCounter
        refine evaluateLeft (growsBranch.begins_of beginsBranch) hn at' owned fun m₁ hm₁ s₁ locals₁ at₁ kept₁ fit₁ => ?_
        have kept := (Kept.refl g.temporaryCounter locals).trans kept₁ (newNonLocalTemporary_grows g).temporaryCounter
        refine safe_choose valid callers lowered beginsBranch at₁ fit₁ (fun field result same => fresh.old
          (same ▸ LlirOperand.field.inj (value.symm.trans result) ▸ recent)) fresh.isLocal fresh.undeclared fun m₂ hm₂ s₂ value bool block side at₂ => ?_
        have kept₂ : Kept g.temporaryCounter locals (locals₁.write llir g.newNonLocalTemporary.1 0 value) :=
          kept.trans (Kept.write fresh.name locals₁ 0 value) le_rfl
        obtain rfl | rfl := side
        · refine generateExpression_safe valid callers lowered calls fits _ (followsBranch.matchesScopes matchesStart)
            right hr beginsRight (by omega) at₂
            (owned.kept hm kept₂) fun m₃ hm₃ s₃ locals₃ at₃ kept₃ fit₃ => ?_
          refine safe_unary valid callers lowered.named ((jumpTo_grows _ _ _).begins_of begins) at₃
            (operandsOwned_single rfl fit₃) (fun _ _ isBool => absurd isBool fresh.undeclared)
            (fun global => absurd global fresh.isLocal) fun m₄ hm₄ s₄ at₄ => ?_
          refine safe_jump valid callers begins at₄ fun m₅ hm₅ s₅ at₅ => next m₅ (by omega) s₅ _ at₅ ?_ ?_
          · exact (kept₂.trans kept₃ (Nat.le_of_succ_le counter)).trans (Kept.write fresh.name _ _ _) le_rfl
          · exact fresh.fits _ (counter.trans growsRight) fun asked _ => fit₃.bool_value asked rfl _ _ _ _
        · exact next m₂ (by omega) s₂ _ at₂ kept₂ (fresh.fits _ (counter.trans growsRight) fun asked _ => bool asked)
      · have unfolded : generateExpression g (.binary operator left right) =
            let first := generateExpression g left
            let second := generateExpression first.2 right
            (.field second.2.newLocalTemporary.1, second.2.newLocalTemporary.2.addAssignment
              (.binary (irOperatorToAssignmentType operator) first.1 second.1 second.2.newLocalTemporary.1)) := by
          rw [generateExpression, if_neg shortCircuit]
        rw [unfolded] at begins next
        have follows : g.Follows False _ _ := generateExpression_follows g hm left hl
        have growsRight := generateExpression_grows (generateExpression g left).2 right
        have beginsRight := (newLocalTemporary_grows _).begins_of ((addAssignment_grows _ _).begins_of begins)
        refine generateExpression_safe valid callers lowered calls fits g hm left hl
          (growsRight.begins_of beginsRight) hn at' owned
          fun m₁ hm₁ s₁ locals₁ at₁ kept₁ fit₁ => ?_
        refine generateExpression_safe valid callers lowered calls fits _ (follows.matchesScopes hm) right hr
          beginsRight (hm₁.trans hn) at₁ (owned.kept hm kept₁) fun m₂ hm₂ s₂ locals₂ at₂ kept₂ fit₂ => ?_
        have fresh := newLocalTemporary_fresh lowered.named (generateExpression (generateExpression g left).2 right).2
        refine safe_binary valid callers lowered.named begins at₂
          (operandsOwned_pair rfl (fit₁.kept kept₂ growsRight.temporaryCounter) fit₂) fresh.undeclared
          (fun global => absurd global fresh.isLocal) fun m₃ hm₃ s₃ value result at₃ => ?_
        refine (next.after hm₁ kept₁ (generateExpression_grows g left).temporaryCounter).after hm₂ kept₂
          growsRight.temporaryCounter m₃ hm₃.le s₃ _ at₃ (Kept.write fresh.name _ _ _)
          (fresh.fits _ le_rfl fun _ bool => ?_)
        subst bool
        exact canonicalWord_of_operator op shortCircuit result
  | not expression =>
    cases typed with
    | not h =>
      have grows := (newLocalTemporary_grows (generateExpression g expression).2).trans (addAssignment_grows _
        (.unary .not (generateExpression g expression).1 (generateExpression g expression).2.newLocalTemporary.1))
      refine generateExpression_safe valid callers lowered calls fits g hm expression h (grows.begins_of begins) hn
        at' owned
        fun m₁ hm₁ s₁ locals₁ at₁ kept₁ fit₁ => ?_
      exact safe_temporary_unary valid callers lowered _ begins at₁ (operandsOwned_single rfl fit₁)
        (fun _ _ => canonicalWord_boolWord _) (next.after hm₁ kept₁ (generateExpression_grows g expression).temporaryCounter)
  | negate expression =>
    cases typed with
    | negate h =>
      have grows := (newLocalTemporary_grows (generateExpression g expression).2).trans (addAssignment_grows _
        (.unary .negate (generateExpression g expression).1 (generateExpression g expression).2.newLocalTemporary.1))
      refine generateExpression_safe valid callers lowered calls fits g hm expression h (grows.begins_of begins) hn
        at' owned
        fun m₁ hm₁ s₁ locals₁ at₁ kept₁ fit₁ => ?_
      exact safe_temporary_unary valid callers lowered _ begins at₁ (operandsOwned_single rfl fit₁)
        (fun _ int => by cases int) (next.after hm₁ kept₁ (generateExpression_grows g expression).temporaryCounter)
  | len identifier length =>
    cases typed with
    | len found array =>
      exact safe_temporary_unary valid callers lowered _ begins at' (operandsOwned_of (by simp))
        (fun _ int => by cases int) next
  | methodCall identifier arguments =>
    cases typed with
    | methodCall h value =>
      have follows : g.Follows False _ _ := newLocalTemporary_follows g
      have beginsArguments : (generateArguments g.newLocalTemporary.2 arguments).2.Begins activation.blocks :=
        (addAssignment_grows _ _).begins_of begins
      exact safe_methodCall valid callers lowered calls fits g h begins hn
        (fun h => generateImportedArguments_safe valid callers lowered calls fits _ (follows.matchesScopes hm)
          arguments h beginsArguments hn at' owned)
        (fun fields h => generateArguments_safe valid callers lowered calls fits _ (follows.matchesScopes hm)
          arguments h beginsArguments hn at' owned) next
  | literal literal =>
    cases typed with
    | literal h =>
      have at₁ : AtEnd llir canonical activation (g.assert (literalInRange literal)) s locals := by
        unfold AtEnd
        rw [assert_currentBlock]
        exact at'
      refine safe_temporary_unary valid callers lowered _ begins at₁ (operandsOwned_of (by simp))
        (fun _ bool => ?_) (next.after le_rfl (.refl _ _) (assert_grows g _).temporaryCounter)
      have isBool : literal.type = .bool := by
        cases htype : literal.type <;> simp [htype, IrLiteralType.dataType] at bool ⊢
      refine literalToInt64_bool h.1 isBool ?_
      cases hnegate : literal.negate with
      | false => rfl
      | true =>
        have := h.2 hnegate
        simp [isBool] at this
  | location location =>
    cases typed with
    | location h => exact generateLocation_safe valid callers lowered calls fits g hm location h begins hn at' owned next

/-- Reading a location is safe if what follows is. -/
private theorem generateLocation_safe (valid : activation.Valid llir)
    (callers : canonical → ∀ frame ∈ activation.callers, frame.locals.Canonical)
    (lowered : Lowered program llir) (calls : CallsSafe llir environment program canonical N)
    (fits : ContextFits program c) (g : LlirGenerator) (hm : Matches c.scopes g.symbolTable)
    (location : IrLocation)
    {field : IrField} {type : IrDataType} (typed : LocationTyped readyRules c location field type)
    (begins : (generateLocation g location).2.Begins activation.blocks) {n : Nat} (hn : n ≤ N)
    {s : MachineState} {locals : Store} (at' : AtEnd llir canonical activation g s locals)
    (owned : Owned activation.method.arguments locals c.scopes)
    (next : EvaluatesSafely llir environment program canonical activation n g.temporaryCounter
      (generateLocation g location).2 locals type (generateLocation g location).1) :
    Safe llir environment program canonical n s := by
  cases location with
  | scalar node identifier =>
    cases typed with
    | scalar found =>
      obtain ⟨level, -, result, stored, ready⟩ := lookup_found hm (.scalar node identifier) found
      have visible := owned.visible lowered hm fits.bottom stored
      rw [← result] at visible
      have positive : 0 < (g.lookup (.scalar node identifier)).1.valueCount := by
        rw [result]
        exact ready.positive
      have at₁ : AtEnd llir canonical activation (g.lookup (.scalar node identifier)).2 s locals := by
        unfold AtEnd
        rw [lookup_currentBlock]
        exact at'
      refine safe_temporary_unary valid callers lowered _ begins at₁ (visible.operandsOwned valid positive)
        (fun asked bool => ?_) (next.after le_rfl (.refl _ _) (lookup_temporaryCounter g _).ge)
      refine visible.canonical_cell at' asked ⟨field, ?_, ?_⟩ positive _ rfl
      · rw [result]
        rfl
      · rw [bool]
        rfl
  | element node identifier index =>
    cases typed with
    | element found array h =>
      obtain ⟨level, -, result, stored, ready⟩ := lookup_found hm (.element node identifier index) found
      have follows : g.Follows False _ _ := (lookup_follows hm (.element node identifier index) found).andThen
        (newLocalTemporary_follows _)
      have fresh := newLocalTemporary_fresh lowered.named (g.lookup (.element node identifier index)).2
      have at₁ : AtEnd llir canonical activation (g.lookup (.element node identifier index)).2 s locals := by
        unfold AtEnd
        rw [lookup_currentBlock]
        exact at'
      refine generateExpression_safe valid callers lowered calls fits _ (follows.matchesScopes hm) index h
        ((addAssignment_grows _ _).begins_of begins) hn
        at₁ owned fun m₁ hm₁ s₁ locals₁ at₁ kept₁ fit₁ => ?_
      have kept := (Kept.refl g.temporaryCounter locals).trans kept₁
        ((lookup_temporaryCounter g _).ge.trans (Nat.le_succ _))
      have visible := (owned.kept hm kept).visible lowered hm fits.bottom stored
      rw [← result] at visible
      have isBool (bool : field.type.element = .bool) : (g.lookup (.element node identifier index)).1.IsBool := by
        rw [result]
        exact ⟨field, rfl, bool⟩
      refine safe_access valid callers lowered begins at₁ fit₁ visible fresh.isLocal fresh.undeclared
        fun m₂ hm₂ s₂ value bool at₂ => next m₂ (hm₂.le.trans hm₁) s₂ _ at₂ ?_ ?_
      · exact kept.trans ((Kept.refl _ _).trans (Kept.write fresh.name _ _ _) (lookup_temporaryCounter g _).ge) le_rfl
      · exact fresh.fits _ (generateExpression_grows (g.lookup (.element node identifier index)).2.newLocalTemporary.2
          index).temporaryCounter fun asked type => bool asked (isBool type)

/-- Evaluating the arguments of an imported method is safe if what follows is. -/
theorem generateImportedArguments_safe (valid : activation.Valid llir)
    (callers : canonical → ∀ frame ∈ activation.callers, frame.locals.Canonical)
    (lowered : Lowered program llir) (calls : CallsSafe llir environment program canonical N)
    (fits : ContextFits program c) (g : LlirGenerator) (hm : Matches c.scopes g.symbolTable)
    (arguments : IrArguments) (typed : ImportedArgumentsTyped readyRules c arguments)
    (begins : (generateArguments g arguments).2.Begins activation.blocks) {n : Nat} (hn : n ≤ N)
    {s : MachineState} {locals : Store} (at' : AtEnd llir canonical activation g s locals)
    (owned : Owned activation.method.arguments locals c.scopes)
    (next : ImportedArgumentsEvaluate llir environment program canonical activation n g.temporaryCounter
      (generateArguments g arguments).2 locals (generateArguments g arguments).1) :
    Safe llir environment program canonical n s := by
  cases typed with
  | nil => exact next n le_rfl s locals at' (.refl _ _) (by simp [generateArguments])
  | string h =>
    refine generateImportedArguments_safe valid callers lowered calls fits g hm _ h begins hn at' owned fun m hmn s₁
      locals₁ at₁ kept₁ stored => ?_
    exact next m hmn s₁ locals₁ at₁ kept₁ fun field mem => stored field (by simpa [generateArguments] using mem)
  | @expression expression type rest he h =>
    have follows : g.Follows False _ _ := generateExpression_follows g hm expression he
    have growsRest := generateArguments_grows (generateExpression g expression).2 rest
    refine generateExpression_safe valid callers lowered calls fits g hm expression he (growsRest.begins_of begins) hn
      at' owned
      fun m₁ hm₁ s₁ locals₁ at₁ kept₁ fit₁ => ?_
    refine generateImportedArguments_safe valid callers lowered calls fits _ (follows.matchesScopes hm) rest h begins
      (hm₁.trans hn) at₁
      (owned.kept hm kept₁) fun m₂ hm₂ s₂ locals₂ at₂ kept₂ stored => ?_
    refine next m₂ (hm₂.trans hm₁) s₂ locals₂ at₂ (kept₁.trans kept₂ (generateExpression_grows g expression).temporaryCounter)
      fun field mem => ?_
    simp only [generateArguments, List.mem_cons] at mem
    obtain first | mem := mem
    · exact (fit₁.kept kept₂ le_rfl).stored field first
    · exact stored field mem

/-- Evaluating the arguments of a declared method is safe if what follows is. -/
theorem generateArguments_safe (valid : activation.Valid llir)
    (callers : canonical → ∀ frame ∈ activation.callers, frame.locals.Canonical)
    (lowered : Lowered program llir) (calls : CallsSafe llir environment program canonical N)
    (fits : ContextFits program c) (g : LlirGenerator) (hm : Matches c.scopes g.symbolTable)
    {fields : List IrField} (arguments : IrArguments) (typed : ArgumentsTyped readyRules c fields arguments)
    (begins : (generateArguments g arguments).2.Begins activation.blocks) {n : Nat} (hn : n ≤ N)
    {s : MachineState} {locals : Store} (at' : AtEnd llir canonical activation g s locals)
    (owned : Owned activation.method.arguments locals c.scopes)
    (next : ArgumentsEvaluate llir environment program canonical activation n g.temporaryCounter
      (generateArguments g arguments).2 locals fields (generateArguments g arguments).1) :
    Safe llir environment program canonical n s := by
  cases typed with
  | nil => exact next n le_rfl s locals at' (.refl _ _) .nil
  | @expression field fields expression rest he h =>
    have follows : g.Follows False _ _ := generateExpression_follows g hm expression he
    have growsRest := generateArguments_grows (generateExpression g expression).2 rest
    refine generateExpression_safe valid callers lowered calls fits g hm expression he (growsRest.begins_of begins) hn
      at' owned
      fun m₁ hm₁ s₁ locals₁ at₁ kept₁ fit₁ => ?_
    refine generateArguments_safe valid callers lowered calls fits _ (follows.matchesScopes hm) rest h begins
      (hm₁.trans hn) at₁
      (owned.kept hm kept₁) fun m₂ hm₂ s₂ locals₂ at₂ kept₂ fits => ?_
    exact next m₂ (hm₂.trans hm₁) s₂ locals₂ at₂ (kept₁.trans kept₂ (generateExpression_grows g expression).temporaryCounter)
      (.cons (fit₁.kept kept₂ growsRest.temporaryCounter) fits)

end

end

end Roast
