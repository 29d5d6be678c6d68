import Roast.Assembly.Names

/-! The names in generated code. Every field that an assignment or a terminal mentions is a global field, an
argument or declared in a block of the method, every called method exists, and a global field is stored
into by source assignments only. -/
namespace Roast
open LlirGenerator

def LlirOperand.Resolved (known : List LlirField) : LlirOperand → Prop
  | .field operand => operand ∈ known
  | .literal _ => True
  | .string _ => False

def LlirOperand.Passable (known : List LlirField) (operand : LlirOperand) : Prop :=
  operand.Resolved known ∨ ∃ string, operand = .string string

def LlirAssignment.Resolved (names : List String) (known : List LlirField) : LlirAssignment → Prop
  | .unary _ source destination => source.Resolved known ∧ destination ∈ known
  | .binary _ left right destination => left.Resolved known ∧ right.Resolved known ∧ destination ∈ known
  | .arrayUpdate index value destination => index.Resolved known ∧ value.Resolved known ∧ destination ∈ known
  | .arrayAccess index array destination _ => index.Resolved known ∧ array ∈ known ∧ destination ∈ known
  | .methodCall method arguments destination =>
    method ∈ names ∧ (∀ argument ∈ arguments, argument.Passable known) ∧ destination ∈ known

def LlirTerminal.Resolved (known : List LlirField) : LlirTerminal → Prop
  | .branch terminal => terminal.left.Resolved known ∧ terminal.right.Resolved known
  | .llirReturn source => source.Resolved known
  | _ => True

/-- A global field, whose name is that of its declaration, is stored into by `writes` only, and by no call. -/
def LlirAssignment.StoresBy (writes : List LlirAssignment) (assignment : LlirAssignment) : Prop :=
  IsIdentifier assignment.destination.identifier →
    assignment ∈ writes ∧ ∀ method arguments destination, assignment ≠ .methodCall method arguments destination

section
variable {names : List String} {known known' : List LlirField} (subset : known ⊆ known')
include subset

theorem LlirOperand.Resolved.mono {operand : LlirOperand} (h : operand.Resolved known) :
    operand.Resolved known' := by
  cases operand with
  | field field => exact subset h
  | literal literal => trivial
  | string string => exact h

theorem LlirAssignment.Resolved.mono {assignment : LlirAssignment} (h : assignment.Resolved names known) :
    assignment.Resolved names known' := by
  cases assignment with
  | unary type source destination => exact ⟨h.1.mono subset, subset h.2⟩
  | binary type left right destination => exact ⟨h.1.mono subset, h.2.1.mono subset, subset h.2.2⟩
  | arrayUpdate index value destination => exact ⟨h.1.mono subset, h.2.1.mono subset, subset h.2.2⟩
  | arrayAccess index array destination guarded => exact ⟨h.1.mono subset, subset h.2.1, subset h.2.2⟩
  | methodCall method arguments destination =>
    exact ⟨h.1, fun argument mem => (h.2.1 argument mem).imp_left (·.mono subset), subset h.2.2⟩

theorem LlirTerminal.Resolved.mono {terminal : LlirTerminal} (h : terminal.Resolved known) :
    terminal.Resolved known' := by
  cases terminal with
  | branch branch => exact ⟨h.1.mono subset, h.2.mono subset⟩
  | llirReturn source =>
    have value : source.Resolved known := h
    exact value.mono subset
  | _ => trivial

end

def LlirGenerator.known (outer : List LlirField) (g : LlirGenerator) : List LlirField :=
  outer ++ g.layout.flatMap LlirBlock.fields

private theorem LlirGenerator.Grows.known_subset {g g' : LlirGenerator} (h : g.Grows g') (outer : List LlirField) :
    g.known outer ⊆ g'.known outer := by
  obtain ⟨current, rest, layout, growth⟩ := h.begins
  intro field mem
  rw [LlirGenerator.known, List.mem_append] at mem ⊢
  refine mem.imp_right fun mem => ?_
  rw [layout]
  rw [LlirGenerator.layout, List.flatMap_append, List.mem_append] at mem
  rw [List.flatMap_append, List.mem_append]
  refine mem.imp_right fun mem => ?_
  rw [List.flatMap_singleton] at mem
  rw [List.flatMap_cons]
  exact List.mem_append_left _ (growth.fields.subset mem)

structure LlirGenerator.CodeResolved (names : List String) (outer : List LlirField) (g : LlirGenerator) :
    Prop where
  table : ∀ table ∈ g.symbolTable, ∀ entry ∈ table, entry.2 ∈ g.known outer
  assignments : ∀ block ∈ g.layout, ∀ assignment ∈ block.assignments,
    assignment.Resolved names (g.known outer) ∧ assignment.StoresBy g.writes
  terminals : ∀ block ∈ g.layout, block.terminal.Resolved (g.known outer)

def LlirGenerator.Resolves (names : List String) (outer : List LlirField) (g : LlirGenerator) : Prop :=
  g.failed = false → g.CodeResolved names outer

def LlirGenerator.Gives (outer : List LlirField) (g : LlirGenerator) (operand : LlirOperand) : Prop :=
  g.failed = false → operand.Resolved (g.known outer)

def LlirGenerator.Has (outer : List LlirField) (g : LlirGenerator) (field : LlirField) : Prop :=
  g.failed = false → field ∈ g.known outer

theorem LlirGenerator.Gives.grows {outer : List LlirField} {g g' : LlirGenerator} {operand : LlirOperand}
    (h : g.Gives outer operand) (grows : g.Grows g') : g'.Gives outer operand :=
  fun alive => (h (grows.succeeds alive)).mono (grows.known_subset outer)

theorem LlirGenerator.Has.grows {outer : List LlirField} {g g' : LlirGenerator} {field : LlirField}
    (h : g.Has outer field) (grows : g.Grows g') : g'.Has outer field :=
  fun alive => grows.known_subset outer (h (grows.succeeds alive))

private theorem LlirGenerator.mem_of_lookup {table : List (String × LlirField)} {identifier : String}
    {field : LlirField}
    (found : table.lookup identifier = some field) : ∃ entry ∈ table, entry.2 = field := by
  induction table with
  | nil => simp at found
  | cons entry rest ih =>
    rw [List.lookup_cons] at found
    split at found
    · exact ⟨entry, List.mem_cons_self .., Option.some.inj found⟩
    · obtain ⟨other, mem, same⟩ := ih found
      exact ⟨other, List.mem_cons_of_mem _ mem, same⟩

namespace LlirGenerator.Resolves
variable {names : List String} {outer : List LlirField} {g g' : LlirGenerator}

/-- Operations that leave the code alone. -/
theorem of_same (h : g.Resolves names outer) (alive : g'.failed = false → g.failed = false)
    (blocks : g'.blocks = g.blocks) (currentBlock : g'.currentBlock = g.currentBlock)
    (symbolTable : g'.symbolTable ⊆ g.symbolTable) (writes : g'.writes = g.writes) :
    g'.Resolves names outer := by
  intro active
  have layout : g'.layout = g.layout := by rw [LlirGenerator.layout, blocks, currentBlock]; rfl
  have known : g'.known outer = g.known outer := by rw [LlirGenerator.known, layout]; rfl
  have code := h (alive active)
  constructor
  · intro table mem
    rw [known]
    exact code.table table (symbolTable mem)
  · rw [layout, known, writes]
    exact code.assignments
  · rw [layout, known]
    exact code.terminals

theorem assert (h : g.Resolves names outer) (condition : Prop) [Decidable condition] :
    (g.assert condition).Resolves names outer := by
  have grows := assert_grows g condition
  refine h.of_same grows.succeeds ?_ ?_ ?_ ?_ <;> (unfold LlirGenerator.assert; split) <;> simp

/-- The current block grows by assignments. -/
theorem addAssignment (h : g.Resolves names outer) (assignment : LlirAssignment) (name : assignment.StoresBy g.writes)
    (resolved : g.failed = false → assignment.Resolved names (g.known outer)) :
    (g.addAssignment assignment).Resolves names outer := by
  intro alive
  have code := h alive
  have known : (g.addAssignment assignment).known outer = g.known outer := by
    simp [LlirGenerator.known, LlirGenerator.layout, LlirGenerator.addAssignment]
  constructor
  · rw [known]
    exact code.table
  · rw [known]
    intro block mem other mem'
    obtain mem | mem := List.mem_append.mp mem
    · exact code.assignments block (List.mem_append_left _ mem) other mem'
    · rw [List.mem_singleton.mp mem] at mem'
      obtain mem' | mem' := List.mem_append.mp mem'
      · exact code.assignments g.currentBlock (by simp [LlirGenerator.layout]) other mem'
      · rw [List.mem_singleton.mp mem']
        exact ⟨resolved alive, name⟩
  · rw [known]
    intro block mem
    obtain mem | mem := List.mem_append.mp mem
    · exact code.terminals block (List.mem_append_left _ mem)
    · exact List.mem_singleton.mp mem ▸ code.terminals g.currentBlock (by simp [LlirGenerator.layout])

theorem addField (h : g.Resolves names outer) (field : LlirField) :
    (g.addField field).Resolves names outer ∧ (g.addField field).Has outer field := by
  have subset := (addField_grows g field).known_subset outer
  refine ⟨fun alive => ?_, fun _ => ?_⟩
  · have code := h alive
    constructor
    · exact fun table mem entry mem' => subset (code.table table mem entry mem')
    · intro block mem assignment mem'
      obtain mem | mem := List.mem_append.mp mem
      · exact (code.assignments block (List.mem_append_left _ mem) assignment mem').imp_left (·.mono subset)
      · rw [List.mem_singleton.mp mem] at mem'
        exact (code.assignments g.currentBlock (by simp [LlirGenerator.layout]) assignment mem').imp_left
          (·.mono subset)
    · intro block mem
      obtain mem | mem := List.mem_append.mp mem
      · exact (code.terminals block (List.mem_append_left _ mem)).mono subset
      · rw [List.mem_singleton.mp mem]
        exact (code.terminals g.currentBlock (by simp [LlirGenerator.layout])).mono subset
  · simp [LlirGenerator.known, LlirGenerator.layout, LlirGenerator.addField]

theorem symbolTableSet (h : g.Resolves names outer) (identifier : String) {field : LlirField}
    (has : g.Has outer field) : (g.symbolTableSet identifier field).Resolves names outer := by
  intro alive
  have code := h alive
  refine ⟨?_, code.assignments, code.terminals⟩
  have member := has alive
  have tables := code.table
  unfold LlirGenerator.symbolTableSet
  dsimp only
  cases htables : g.symbolTable with
  | nil => simp
  | cons first rest =>
    rw [htables] at tables
    intro table mem entry mem'
    obtain rfl | mem := List.mem_cons.mp mem
    · obtain rfl | mem' := List.mem_cons.mp mem'
      · exact member
      · exact tables first (List.mem_cons_self ..) entry mem'
    · exact tables table (List.mem_cons_of_mem _ mem) entry mem'

theorem newTemporary (h : g.Resolves names outer) (character : Char) :
    (g.newTemporary character).2.Resolves names outer ∧
      (g.newTemporary character).2.Has outer (g.newTemporary character).1 := by
  obtain ⟨added, has⟩ := addField (g := { g with temporaryCounter := g.temporaryCounter + 1 })
    (h.of_same id rfl rfl (fun _ => id) rfl) (g.newTemporary character).1
  exact ⟨added.symbolTableSet _ has, has⟩

/-- A terminal ends the current block and the next one begins. -/
theorem close (h : g.Resolves names outer) {terminal : LlirTerminal}
    (resolved : g.failed = false → terminal.Resolved (g.known outer)) (next : Nat) :
    ((g.setTerminal terminal).nextBlock next).Resolves names outer := by
  intro alive
  have code := h alive
  have known : ((g.setTerminal terminal).nextBlock next).known outer = g.known outer := by
    simp [LlirGenerator.known, LlirGenerator.layout, LlirGenerator.nextBlock, LlirGenerator.setTerminal,
      llirBlockNew]
  constructor
  · rw [known]
    exact code.table
  · rw [known]
    intro block mem assignment mem'
    obtain mem | mem := List.mem_append.mp mem
    · obtain mem | mem := List.mem_append.mp mem
      · exact code.assignments block (List.mem_append_left _ mem) assignment mem'
      · rw [List.mem_singleton.mp mem] at mem'
        exact code.assignments g.currentBlock (by simp [LlirGenerator.layout]) assignment mem'
    · rw [List.mem_singleton.mp mem] at mem'
      exact absurd mem' (List.not_mem_nil)
  · rw [known]
    intro block mem
    obtain mem | mem := List.mem_append.mp mem
    · obtain mem | mem := List.mem_append.mp mem
      · exact code.terminals block (List.mem_append_left _ mem)
      · exact List.mem_singleton.mp mem ▸ resolved alive
    · rw [List.mem_singleton.mp mem]
      trivial

theorem newBlock (h : g.Resolves names outer) : g.newBlock.2.Resolves names outer :=
  h.of_same id rfl rfl (fun _ => id) rfl

theorem jumpTo (h : g.Resolves names outer) (target next : Nat) : (g.jumpTo target next).Resolves names outer := by
  have resolved : g.failed = false → (LlirTerminal.jump target).Resolved (g.known outer) := fun _ => trivial
  exact h.close resolved next

theorem branchTo (h : g.Resolves names outer) (branch : LlirBranch) (left : g.Gives outer branch.left)
    (right : g.Gives outer branch.right) : (g.branchTo branch).Resolves names outer := by
  have resolved : g.failed = false → (LlirTerminal.branch branch).Resolved (g.known outer) :=
    fun alive => ⟨left alive, right alive⟩
  exact h.close resolved _

theorem branchNew (h : g.Resolves names outer) (type : LlirBranchType) (unsignedComparison : Bool)
    {left right : LlirOperand} (hl : g.Gives outer left) (hr : g.Gives outer right) :
    (g.branchNew type unsignedComparison left right).2.Resolves names outer :=
  branchTo (g := g.newBlock.2.newBlock.2) h.newBlock.newBlock _ hl hr

theorem leave (h : g.Resolves names outer) {terminal : LlirTerminal}
    (resolved : g.failed = false → terminal.Resolved (g.known outer)) :
    (((g.setTerminal terminal).newBlock.2).nextBlock (g.setTerminal terminal).newBlock.1).Resolves names outer :=
  close (g := g.newBlock.2) h.newBlock resolved _

theorem lookup (h : g.Resolves names outer) (location : IrLocation) :
    (g.lookup location).2.Resolves names outer ∧ (g.lookup location).2.Has outer (g.lookup location).1 := by
  unfold LlirGenerator.lookup
  split
  · rename_i field found
    refine ⟨h.of_same id rfl rfl (fun _ => id) rfl, fun alive => ?_⟩
    obtain ⟨table, mem, inside⟩ := List.exists_of_findSome?_eq_some found
    obtain ⟨entry, mem', rfl⟩ := LlirGenerator.mem_of_lookup inside
    exact (h alive).table table mem entry mem'
  · exact ⟨fun alive => absurd alive (by simp), fun alive => absurd alive (by simp)⟩

theorem symbolTablePopScope (h : g.Resolves names outer) : g.symbolTablePopScope.Resolves names outer := by
  have shrunk : LlirGenerator.Resolves names outer { g with symbolTable := g.symbolTable.tail } :=
    h.of_same id rfl rfl (fun _ => List.mem_of_mem_tail) rfl
  unfold LlirGenerator.symbolTablePopScope LlirGenerator.assert
  split
  · exact shrunk
  · exact fun alive => absurd alive (by simp)

end LlirGenerator.Resolves

private theorem temporary_storesBy {character : Char} (h : character = '$' ∨ character = '#') (g : LlirGenerator)
    {assignment : LlirAssignment} (destination : assignment.destination = (g.newTemporary character).1)
    (writes : List LlirAssignment) : assignment.StoresBy writes := by
  intro name
  rw [destination] at name
  exact absurd rfl (temporary_not_identifier h (toString g.temporaryCounter) name)

section
variable {names : List String} {outer : List LlirField}

def ResolvedWith (names : List String) (outer : List LlirField) (result : LlirOperand × LlirGenerator) : Prop :=
  result.2.Resolves names outer ∧ result.2.Gives outer result.1

/-- A value is computed into a fresh temporary. -/
private theorem temporary_resolved {g : LlirGenerator} (h : g.Resolves names outer)
    (assignment : LlirField → LlirAssignment) (destination : ∀ field, (assignment field).destination = field)
    (resolved : ∀ field, g.newLocalTemporary.2.Has outer field → g.newLocalTemporary.2.failed = false →
      (assignment field).Resolved names (g.newLocalTemporary.2.known outer)) :
    ResolvedWith names outer (.field g.newLocalTemporary.1,
      g.newLocalTemporary.2.addAssignment (assignment g.newLocalTemporary.1)) := by
  obtain ⟨made, has⟩ := h.newTemporary '$'
  have given : g.newLocalTemporary.2.Gives outer (.field g.newLocalTemporary.1) := has
  exact ⟨made.addAssignment _ (temporary_storesBy (.inl rfl) g (destination _) _) (resolved _ has),
    given.grows (addAssignment_grows _ _)⟩

private theorem generateLiteral_resolved {g : LlirGenerator} (h : g.Resolves names outer) (literal : IrLiteral) :
    ResolvedWith names outer (generateLiteral g literal) :=
  temporary_resolved (h.assert _) (.unary .move (.literal (literalToInt64 literal))) (fun _ => rfl)
    fun _ has alive => ⟨trivial, has alive⟩

private theorem method_mem_names {c : Context} (hnames : ∀ method ∈ c.methods, method.identifier ∈ names)
    {identifier : String} {method : IrMethod} (found : c.method identifier = some method) : identifier ∈ names := by
  have same : method.identifier = identifier := by simpa using List.find?_some found
  exact same ▸ hnames method (List.mem_of_find?_eq_some found)

private theorem callTyped_name {c : Context} (hnames : ∀ method ∈ c.methods, method.identifier ∈ names)
    {identifier : String} {arguments : IrArguments} {type : IrDataType}
    (typed : CallTyped readyRules c identifier arguments type) : identifier ∈ names := by
  cases typed with
  | imported _ found _ _ => exact method_mem_names hnames found
  | declared _ found _ _ => exact method_mem_names hnames found

def IrArguments.expressions : IrArguments → List IrExpression
  | .nil => []
  | .string _ rest => rest.expressions
  | .expression first rest => first :: rest.expressions

private theorem importedArgumentsTyped_expressions {c : Context} (arguments : IrArguments)
    (typed : ImportedArgumentsTyped readyRules c arguments) :
    ∀ expression ∈ arguments.expressions, ∃ type, ExpressionTyped readyRules c expression type := by
  match arguments, typed with
  | .nil, _ => simp [IrArguments.expressions]
  | .string _ rest, .string typed => exact importedArgumentsTyped_expressions rest typed
  | .expression _ rest, .expression first typed =>
    exact List.forall_mem_cons.mpr ⟨⟨_, first⟩, importedArgumentsTyped_expressions rest typed⟩

private theorem argumentsTyped_expressions {c : Context} (fields : List IrField) (arguments : IrArguments)
    (typed : ArgumentsTyped readyRules c fields arguments) :
    ∀ expression ∈ arguments.expressions, ∃ type, ExpressionTyped readyRules c expression type := by
  match fields, arguments, typed with
  | _, .nil, _ => simp [IrArguments.expressions]
  | _, .expression _ rest, .expression first typed =>
    exact List.forall_mem_cons.mpr ⟨⟨_, first⟩, argumentsTyped_expressions _ rest typed⟩

theorem callTyped_expressions {c : Context} {identifier : String} {arguments : IrArguments} {type : IrDataType}
    (typed : CallTyped readyRules c identifier arguments type) :
    ∀ expression ∈ arguments.expressions, ∃ type, ExpressionTyped readyRules c expression type := by
  cases typed with
  | imported _ _ _ typed => exact importedArgumentsTyped_expressions arguments typed
  | declared _ _ _ typed => exact argumentsTyped_expressions _ arguments typed

private theorem call_resolved {g : LlirGenerator} (h : g.Resolves names outer) {identifier : String}
    (mem : identifier ∈ names) {arguments : IrArguments}
    (passed : (generateArguments g.newLocalTemporary.2 arguments).2.Resolves names outer ∧
      ((generateArguments g.newLocalTemporary.2 arguments).2.failed = false →
        ∀ operand ∈ (generateArguments g.newLocalTemporary.2 arguments).1,
          operand.Passable ((generateArguments g.newLocalTemporary.2 arguments).2.known outer))) :
    ResolvedWith names outer (generateMethodCall g identifier arguments) := by
  obtain ⟨-, has⟩ := h.newTemporary '$'
  have temporary : g.newLocalTemporary.2.Gives outer (.field g.newLocalTemporary.1) := has
  have grows := generateArguments_grows g.newLocalTemporary.2 arguments
  exact ⟨passed.1.addAssignment _ (temporary_storesBy (.inl rfl) g rfl _)
    fun alive => ⟨mem, passed.2 alive, (has.grows grows) alive⟩,
    (temporary.grows grows).grows (addAssignment_grows _ _)⟩

mutual

/-- Every name that the lowered expression mentions is declared. -/
private theorem generateExpression_resolved {c : Context} (hnames : ∀ method ∈ c.methods, method.identifier ∈ names)
    (g : LlirGenerator) (h : g.Resolves names outer) (expression : IrExpression) {type : IrDataType}
    (typed : ExpressionTyped readyRules c expression type) :
    ResolvedWith names outer (generateExpression g expression) := by
  cases expression with
  | binary operator left right =>
    cases typed with
    | binary op hl hr =>
      unfold generateExpression
      split
      · obtain ⟨made, has⟩ := h.newTemporary '#'
        have temporary : g.newNonLocalTemporary.2.Gives outer (.field g.newNonLocalTemporary.1) := has
        obtain ⟨first, leftGiven⟩ := generateExpression_resolved hnames _ made left hl
        have leftGrows := generateExpression_grows g.newNonLocalTemporary.2 left
        have moved := first.addAssignment (.unary .move _ g.newNonLocalTemporary.1)
          (temporary_storesBy (.inr rfl) g rfl _) fun alive => ⟨leftGiven alive, (has.grows leftGrows) alive⟩
        have movedGrows := addMove_grows (generateExpression g.newNonLocalTemporary.2 left).2
          (generateExpression g.newNonLocalTemporary.2 left).1 g.newNonLocalTemporary.1
        have one : LlirGenerator.Gives outer ((generateExpression g.newNonLocalTemporary.2 left).2.addMove
            (generateExpression g.newNonLocalTemporary.2 left).1 g.newNonLocalTemporary.1) (.literal 1) :=
          fun _ => trivial
        have branched := moved.branchNew (if operator = .or then .equal else .notEqual) false
          (leftGiven.grows movedGrows) one
        have branchGrows := (leftGrows.trans movedGrows).trans (branchNew_grows _
          (if operator = .or then .equal else .notEqual) false (generateExpression g.newNonLocalTemporary.2 left).1
          (.literal 1))
        obtain ⟨second, rightGiven⟩ := generateExpression_resolved hnames _ branched right hr
        have rightGrows := branchGrows.trans (generateExpression_grows _ right)
        have stored := second.addAssignment (.unary .move _ g.newNonLocalTemporary.1)
          (temporary_storesBy (.inr rfl) g rfl _) fun alive => ⟨rightGiven alive, (has.grows rightGrows) alive⟩
        exact ⟨stored.jumpTo _ _,
          ((temporary.grows rightGrows).grows (addMove_grows _ _ _)).grows (jumpTo_grows _ _ _)⟩
      · obtain ⟨first, leftGiven⟩ := generateExpression_resolved hnames g h left hl
        obtain ⟨second, rightGiven⟩ := generateExpression_resolved hnames _ first right hr
        have made := newLocalTemporary_grows (generateExpression (generateExpression g left).2 right).2
        have leftLater := leftGiven.grows ((generateExpression_grows _ right).trans made)
        exact temporary_resolved second (.binary (irOperatorToAssignmentType operator) _ _) (fun _ => rfl)
          fun _ has alive => ⟨leftLater alive, (rightGiven.grows made) alive, has alive⟩
  | not expression =>
    cases typed with
    | not typed =>
      obtain ⟨first, given⟩ := generateExpression_resolved hnames g h expression typed
      exact temporary_resolved first (.unary .not _) (fun _ => rfl)
        fun _ has alive => ⟨(given.grows (newLocalTemporary_grows _)) alive, has alive⟩
  | negate expression =>
    cases typed with
    | negate typed =>
      obtain ⟨first, given⟩ := generateExpression_resolved hnames g h expression typed
      exact temporary_resolved first (.unary .negate _) (fun _ => rfl)
        fun _ has alive => ⟨(given.grows (newLocalTemporary_grows _)) alive, has alive⟩
  | len identifier length =>
    exact temporary_resolved h (.unary .move (.literal (BitVec.ofInt 64 length))) (fun _ => rfl)
      fun _ has alive => ⟨trivial, has alive⟩
  | methodCall identifier arguments =>
    cases typed with
    | methodCall typed _ =>
      exact call_resolved h (callTyped_name hnames typed) (generateArguments_resolved hnames _
        (h.newTemporary '$').1 arguments (callTyped_expressions typed))
  | literal literal => exact generateLiteral_resolved h literal
  | location location =>
    cases typed with
    | location typed => exact generateLocation_resolved hnames g h location typed

/-- Every name that the lowered location mentions is declared. -/
private theorem generateLocation_resolved {c : Context} (hnames : ∀ method ∈ c.methods, method.identifier ∈ names)
    (g : LlirGenerator) (h : g.Resolves names outer) (location : IrLocation) {field : IrField} {type : IrDataType}
    (typed : LocationTyped readyRules c location field type) :
    ResolvedWith names outer (generateLocation g location) := by
  cases location with
  | scalar node identifier =>
    obtain ⟨found, stored⟩ := h.lookup (.scalar node identifier)
    exact temporary_resolved found (.unary .move (.field (g.lookup (.scalar node identifier)).1)) (fun _ => rfl)
      fun _ has alive => ⟨(stored.grows (newLocalTemporary_grows _)) alive, has alive⟩
  | element node identifier index =>
    cases typed with
    | element _ _ typed =>
      obtain ⟨found, stored⟩ := h.lookup (.element node identifier index)
      obtain ⟨made, has⟩ := found.newTemporary '$'
      have temporary : (g.lookup (.element node identifier index)).2.newLocalTemporary.2.Gives outer (.field
        (g.lookup (.element node identifier index)).2.newLocalTemporary.1) := has
      obtain ⟨first, given⟩ := generateExpression_resolved hnames _ made index typed
      have grows := generateExpression_grows (g.lookup (.element node identifier index)).2.newLocalTemporary.2 index
      have array := stored.grows ((newLocalTemporary_grows _).trans grows)
      exact ⟨first.addAssignment _ (temporary_storesBy (.inl rfl) (g.lookup (.element node identifier index)).2 rfl _)
        fun alive => ⟨given alive, array alive, (has.grows grows) alive⟩,
        (temporary.grows grows).grows (addAssignment_grows _ _)⟩

/-- Every name that the lowered arguments mention is declared. -/
private theorem generateArguments_resolved {c : Context} (hnames : ∀ method ∈ c.methods, method.identifier ∈ names)
    (g : LlirGenerator) (h : g.Resolves names outer) (arguments : IrArguments)
    (typed : ∀ expression ∈ arguments.expressions, ∃ type, ExpressionTyped readyRules c expression type) :
    (generateArguments g arguments).2.Resolves names outer ∧
      ((generateArguments g arguments).2.failed = false → ∀ operand ∈ (generateArguments g arguments).1,
        operand.Passable ((generateArguments g arguments).2.known outer)) := by
  cases arguments with
  | nil => exact ⟨h, fun _ => by simp [generateArguments]⟩
  | string string rest =>
    obtain ⟨resolved, passable⟩ := generateArguments_resolved hnames g h rest typed
    refine ⟨resolved, fun alive => List.forall_mem_cons.mpr ⟨.inr ⟨string, rfl⟩, passable alive⟩⟩
  | expression expression rest =>
    obtain ⟨type, first⟩ := typed expression (List.mem_cons_self ..)
    obtain ⟨evaluated, given⟩ := generateExpression_resolved hnames g h expression first
    obtain ⟨resolved, passable⟩ := generateArguments_resolved hnames _ evaluated rest
      fun other mem => typed other (List.mem_cons_of_mem _ mem)
    exact ⟨resolved, fun alive => List.forall_mem_cons.mpr
      ⟨.inl ((given.grows (generateArguments_grows _ rest)) alive), passable alive⟩⟩

end

private theorem generateMethodCall_resolved {c : Context} (hnames : ∀ method ∈ c.methods, method.identifier ∈ names)
    (g : LlirGenerator) (h : g.Resolves names outer) (identifier : String) (arguments : IrArguments)
    {type : IrDataType} (typed : CallTyped readyRules c identifier arguments type) :
    ResolvedWith names outer (generateMethodCall g identifier arguments) :=
  call_resolved h (callTyped_name hnames typed) (generateArguments_resolved hnames _ (h.newTemporary '$').1 arguments
    (callTyped_expressions typed))

private theorem generateBoundsCheck_resolved {g : LlirGenerator} (h : g.Resolves names outer) {index : LlirOperand}
    (given : g.Gives outer index) (length : Word) : (generateBoundsCheck g index length).Resolves names outer := by
  have limit : g.Gives outer (.literal length) := fun _ => trivial
  have resolved : (g.branchNew .less true index (.literal length)).2.failed = false →
      (LlirTerminal.shitYourself (-1)).Resolved ((g.branchNew .less true index (.literal length)).2.known outer) :=
    fun _ => trivial
  exact (h.branchNew .less true given limit).close resolved _

def LlirGenerator.GivesIndex (outer : List LlirField) (g : LlirGenerator) (index : Option LlirOperand) : Prop :=
  ∀ operand ∈ index, g.Gives outer operand

theorem LlirGenerator.GivesIndex.grows {g g' : LlirGenerator} {index : Option LlirOperand}
    (h : g.GivesIndex outer index) (grows : g.Grows g') : g'.GivesIndex outer index :=
  fun operand mem => (h operand mem).grows grows

private theorem addRead_resolved {g : LlirGenerator} (h : g.newLocalTemporary.2.Resolves names outer)
    {field : LlirField}
    (has : g.newLocalTemporary.2.Has outer field)
    (temporary : g.newLocalTemporary.2.Has outer g.newLocalTemporary.1) {index : Option LlirOperand}
    (given : g.newLocalTemporary.2.GivesIndex outer index) :
    (g.newLocalTemporary.2.addRead field g.newLocalTemporary.1 index).Resolves names outer := by
  cases index with
  | none =>
    exact h.addAssignment _ (temporary_storesBy (.inl rfl) g rfl _) fun alive => ⟨has alive, temporary alive⟩
  | some index =>
    exact h.addAssignment _ (temporary_storesBy (.inl rfl) g rfl _)
      fun alive => ⟨given index rfl alive, has alive, temporary alive⟩

/-- The write of a source assignment is logged. -/
private theorem addWrite_resolved {g : LlirGenerator} (h : g.Resolves names outer) {field : LlirField}
    (has : g.Has outer field) {source : LlirOperand} (value : g.Gives outer source) {index : Option LlirOperand}
    (given : g.GivesIndex outer index) : (g.addWrite field source index).Resolves names outer := by
  have logged (assignment : LlirAssignment)
      (noCall : ∀ method arguments destination, assignment ≠ .methodCall method arguments destination)
      (resolved : g.failed = false → assignment.Resolved names (g.known outer)) : LlirGenerator.Resolves names outer
        { g.addAssignment assignment with writes := g.writes ++ [assignment] } := by
    intro alive
    have before : LlirGenerator.Resolves names outer { g with writes := g.writes ++ [assignment] } := by
      intro alive
      have code := h alive
      exact ⟨code.table, fun block mem other mem' => ⟨(code.assignments block mem other mem').1,
        fun name => ((code.assignments block mem other mem').2 name).imp_left (List.mem_append_left _)⟩,
        code.terminals⟩
    exact before.addAssignment assignment (fun _ => ⟨by simp, noCall⟩) resolved alive
  cases index with
  | none => exact logged _ (by simp) fun alive => ⟨value alive, has alive⟩
  | some index => exact logged _ (by simp) fun alive => ⟨given index rfl alive, value alive, has alive⟩

private theorem generateAssignmentWrite_resolved {g : LlirGenerator} (h : g.Resolves names outer)
    (assignOperator : IrAssignOperator) {field : LlirField} (has : g.Has outer field) {index : Option LlirOperand}
    (given : g.GivesIndex outer index) {source : LlirOperand} (value : g.Gives outer source) :
    (generateAssignmentWrite g assignOperator field index source).Resolves names outer := by
  unfold generateAssignmentWrite
  split
  · exact addWrite_resolved h has value given
  · obtain ⟨made, temporary⟩ := h.newTemporary '$'
    have toMade := newLocalTemporary_grows g
    have read := addRead_resolved made (has.grows toMade) temporary (given.grows toMade)
    have toRead := addRead_grows g.newLocalTemporary.2 field g.newLocalTemporary.1 index
    have toResult := newLocalTemporary_grows (g.newLocalTemporary.2.addRead field g.newLocalTemporary.1 index)
    have left := temporary.grows (toRead.trans toResult)
    have right := value.grows (toMade.trans (toRead.trans toResult))
    obtain ⟨computed, result⟩ := temporary_resolved read
      (.binary (assignmentType assignOperator) (.field g.newLocalTemporary.1) source) (fun _ => rfl)
      fun _ stored alive => ⟨left alive, right alive, stored alive⟩
    have grows := toMade.trans ((toRead.trans toResult).trans (addAssignment_grows _ (.binary
      (assignmentType assignOperator) (.field g.newLocalTemporary.1) source
      (g.newLocalTemporary.2.addRead field g.newLocalTemporary.1 index).newLocalTemporary.1)))
    exact addWrite_resolved computed (has.grows grows) result (given.grows grows)

private theorem generateSource_resolved {c : Context} (hnames : ∀ method ∈ c.methods, method.identifier ∈ names)
    {g : LlirGenerator} (h : g.Resolves names outer) (source : Option IrExpression) {type : IrDataType}
    (typed : ∀ expression, source = some expression → ExpressionTyped readyRules c expression type) :
    ResolvedWith names outer (generateSource g source) := by
  cases source with
  | none => exact ⟨h, fun _ => trivial⟩
  | some expression => exact generateExpression_resolved hnames g h expression (typed expression rfl)

private theorem generateAssignmentIndex_resolved {c : Context}
    (hnames : ∀ method ∈ c.methods, method.identifier ∈ names)
    {g : LlirGenerator} (h : g.Resolves names outer) (field : LlirField) (location : IrLocation)
    {irField : IrField} {type : IrDataType} (typed : LocationTyped readyRules c location irField type) :
    (generateAssignmentIndex g field location).2.Resolves names outer ∧
      (generateAssignmentIndex g field location).2.GivesIndex outer (generateAssignmentIndex g field location).1 := by
  cases location with
  | scalar node identifier => exact ⟨h, fun operand mem => absurd mem (by simp [generateAssignmentIndex])⟩
  | element node identifier index =>
    cases typed with
    | element _ _ typed =>
      obtain ⟨evaluated, given⟩ := generateExpression_resolved hnames g h index typed
      refine ⟨generateBoundsCheck_resolved evaluated given _, fun operand mem => ?_⟩
      obtain rfl : (generateExpression g index).1 = operand := by simpa [generateAssignmentIndex] using mem
      exact given.grows (generateBoundsCheck_grows _ _ _)

/-- Every name that the lowered assignment mentions is declared. -/
private theorem generateAssignment_resolved {c : Context} (hnames : ∀ method ∈ c.methods, method.identifier ∈ names)
    {g : LlirGenerator} (h : g.Resolves names outer) {assignment : IrAssignment}
    (typed : AssignmentTyped readyRules c assignment) : (generateAssignment g assignment).Resolves names outer := by
  obtain ⟨irField, type, location, -, -, -, source⟩ := typed.location
  obtain ⟨found, has⟩ := h.lookup assignment.location
  obtain ⟨indexed, given⟩ := generateAssignmentIndex_resolved hnames found (g.lookup assignment.location).1
    assignment.location location
  obtain ⟨evaluated, value⟩ := generateSource_resolved hnames indexed assignment.expression source
  have toIndexed := generateAssignmentIndex_grows (g.lookup assignment.location).2 (g.lookup assignment.location).1
    assignment.location
  have toEvaluated := generateSource_grows (generateAssignmentIndex (g.lookup assignment.location).2
    (g.lookup assignment.location).1 assignment.location).2 assignment.expression
  exact generateAssignmentWrite_resolved evaluated _ (has.grows (toIndexed.trans toEvaluated))
    (given.grows toEvaluated) value

private theorem generateForUpdate_resolved {c : Context} (hnames : ∀ method ∈ c.methods, method.identifier ∈ names)
    {g : LlirGenerator} (h : g.Resolves names outer) {update : IrForUpdate}
    (typed : ForUpdateTyped readyRules c update) : (generateForUpdate g update).Resolves names outer := by
  cases typed with
  | methodCall typed => exact (generateMethodCall_resolved hnames g h _ _ typed).1
  | assignment typed => exact generateAssignment_resolved hnames h typed

private theorem foldl_addAssignment_resolved (assignments : List LlirAssignment) {g : LlirGenerator}
    (h : g.Resolves names outer) (stores : ∀ assignment ∈ assignments, ¬ IsIdentifier assignment.destination.identifier)
    (resolved : g.failed = false → ∀ assignment ∈ assignments, assignment.Resolved names (g.known outer)) :
    (assignments.foldl addAssignment g).Resolves names outer := by
  induction assignments generalizing g with
  | nil => exact h
  | cons assignment rest ih =>
    have added := h.addAssignment assignment (fun name => absurd name (stores assignment (List.mem_cons_self ..)))
      fun alive => resolved alive assignment (List.mem_cons_self ..)
    refine ih added (fun other mem => stores other (List.mem_cons_of_mem _ mem)) fun alive other mem => ?_
    exact (resolved alive other (List.mem_cons_of_mem _ mem)).mono
      ((addAssignment_grows g assignment).known_subset outer)

/-- A field declared below the outermost scope is stored under a name of its own. -/
private theorem generateBlockField_resolved {g : LlirGenerator} (h : g.Resolves names outer)
    {scopes : List (List IrField)}
    (hm : Matches scopes g.symbolTable) (inner : 2 ≤ scopes.length) (field : IrField) :
    (generateBlockField g field).Resolves names outer := by
  have level : 0 < g.symbolTableGetScopeLevel := by
    rw [LlirGenerator.symbolTableGetScopeLevel, hm.length]
    omega
  have name : ¬ IsIdentifier (generateField g field).1.identifier := by
    have local' := llirField_not_identifier level field
    simpa [generateField, IrField.llirField] using local'
  obtain ⟨added, has⟩ := (h.assert (InitializerFits field.initializer _)).addField (generateField g field).1
  have entered := added.symbolTableSet field.identifier has
  have declared : ((generateField g field).2.addField (generateField g field).1).Resolves names outer := entered
  have member : ((generateField g field).2.addField (generateField g field).1).Has outer (generateField g field).1 :=
    has
  unfold generateBlockField
  dsimp only
  unfold generateFieldInitialization
  split
  · have grows := assert_grows ((generateField g field).2.addField (generateField g field).1)
      ((generateField g field).1.valueCount < 2 ^ 32)
    refine foldl_addAssignment_resolved _ (declared.assert _) (fun assignment mem => ?_) fun alive assignment mem => ?_
    · obtain ⟨i, -, rfl⟩ := List.mem_map.mp mem
      exact name
    · obtain ⟨i, -, rfl⟩ := List.mem_map.mp mem
      exact ⟨trivial, trivial, (member.grows grows) alive⟩
  · exact declared.addAssignment _ (fun named => absurd named name) fun alive => ⟨trivial, member alive⟩

/-- The declarations of a block are declared in its scope. -/
private theorem generateBlockFields_resolved {scope : List IrField} {scopes : List (List IrField)}
    (fields : List IrField)
    {g : LlirGenerator} (h : g.Resolves names outer) (hm : Matches (scope :: scopes) g.symbolTable)
    (inner : 1 ≤ scopes.length) (distinct : ((scope ++ fields).map IrField.identifier).Nodup)
    (ready : ∀ field ∈ fields, field.Ready) : (fields.foldl generateBlockField g).Resolves names outer := by
  induction fields generalizing g scope with
  | nil => exact h
  | cons field rest ih =>
    have fresh : field.identifier ∉ scope.map IrField.identifier := by
      rw [List.map_append, List.nodup_append] at distinct
      intro mem
      exact distinct.2.2 _ mem _ (by simp) rfl
    obtain ⟨-, hm'⟩ : g.Declares False _ ∧ _ :=
      generateBlockField_declares hm (ready field (by simp)) fresh False.elim
    refine ih (generateBlockField_resolved h hm (by simpa using inner) field) hm' (by simpa using distinct)
      fun other mem => ready other (List.mem_cons_of_mem _ mem)

private theorem generateReturnStatement_resolved {c : Context}
    (hnames : ∀ method ∈ c.methods, method.identifier ∈ names)
    {g : LlirGenerator} (h : g.Resolves names outer) {returnType : IrDataType} {expression : Option IrExpression}
    (typed : ReturnTyped readyRules c returnType expression) :
    (generateReturnStatement g expression).Resolves names outer := by
  have value : ResolvedWith names outer (generateReturnValue g expression) := by
    cases typed with
    | none _ => exact ⟨h, fun _ => trivial⟩
    | some typed => exact generateExpression_resolved hnames g h _ typed
  have resolved : (generateReturnValue g expression).2.failed = false →
      (LlirTerminal.llirReturn (generateReturnValue g expression).1).Resolved
        ((generateReturnValue g expression).2.known outer) := value.2
  exact value.1.leave resolved

private theorem exit_resolved {g : LlirGenerator} (h : g.Resolves names outer) (exit : Option Nat × Nat)
    (target : Nat) :
    let g := ({ g with exits := g.exits ++ [exit] } : LlirGenerator).setTerminal (.jump target)
    (g.newBlock.2.nextBlock g.newBlock.1).Resolves names outer := by
  have logged : LlirGenerator.Resolves names outer { g with exits := g.exits ++ [exit] } :=
    h.of_same id rfl rfl (fun _ => id) rfl
  have resolved : g.failed = false → (LlirTerminal.jump target).Resolved
      (LlirGenerator.known outer { g with exits := g.exits ++ [exit] }) := fun _ => trivial
  exact logged.leave resolved

private theorem condition_resolved {c : Context} (hnames : ∀ method ∈ c.methods, method.identifier ∈ names)
    {g : LlirGenerator} (h : g.Resolves names outer) {condition : IrExpression}
    (typed : ExpressionTyped readyRules c condition .bool) :
    ((generateExpression g condition).2.branchNew .equal false (generateExpression g condition).1
      (.literal 0)).2.Resolves names outer := by
  obtain ⟨evaluated, given⟩ := generateExpression_resolved hnames g h condition typed
  have zero : (generateExpression g condition).2.Gives outer (.literal 0) := fun _ => trivial
  exact evaluated.branchNew .equal false given zero

/-- A loop up to the start of its block. -/
private theorem loopHead_resolved {c : Context} (hnames : ∀ method ∈ c.methods, method.identifier ∈ names)
    {g : LlirGenerator} (h : g.Resolves names outer) {condition : IrExpression}
    (typed : ExpressionTyped readyRules c condition .bool)
    (conditionBlock loopBlock endBlock continueBlock : Nat) :
    let entered := (g.pushLoop endBlock continueBlock).jumpTo conditionBlock conditionBlock
    ((generateExpression entered condition).2.branchTo ⟨.equal, false, (generateExpression entered condition).1,
      .literal 0, loopBlock, endBlock⟩).Resolves names outer := by
  intro entered
  have pushed : (g.pushLoop endBlock continueBlock).Resolves names outer :=
    h.of_same id rfl rfl (fun _ => id) rfl
  obtain ⟨evaluated, given⟩ := generateExpression_resolved hnames entered (pushed.jumpTo _ _) condition typed
  have zero : (generateExpression entered condition).2.Gives outer (.literal 0) := fun _ => trivial
  exact evaluated.branchTo _ given zero

/-- A loop up to the end of its block. -/
private theorem loopBlock_resolved {c : Context} (hnames : ∀ method ∈ c.methods, method.identifier ∈ names)
    {g : LlirGenerator} (h : g.Resolves names outer) (hm : Matches c.scopes g.symbolTable) {condition : IrExpression}
    (typed : ExpressionTyped readyRules c condition .bool) {block : IrBlock}
    (hb : ∀ (g : LlirGenerator) (loop : Option (Nat × Nat)), g.Resolves names outer →
      Matches c.scopes g.symbolTable → g.InnermostLoop loop True →
      (generateBlock g loop true block).Resolves names outer)
    (conditionBlock loopBlock endBlock continueBlock : Nat) :
    let entered := (g.pushLoop endBlock continueBlock).jumpTo conditionBlock conditionBlock
    let branch : LlirBranch :=
      ⟨.equal, false, (generateExpression entered condition).1, .literal 0, loopBlock, endBlock⟩
    (generateBlock ((generateExpression entered condition).2.branchTo branch) (some (endBlock, continueBlock)) true
      block).Resolves names outer := by
  intro entered branch
  have follows : Follows False _ _ _ := loopHead_follows g hm typed conditionBlock loopBlock endBlock continueBlock
  exact hb _ _ (loopHead_resolved hnames h typed conditionBlock loopBlock endBlock continueBlock)
    (follows.matchesScopes hm) (follows.innermostLoop fun _ => ⟨(endBlock, continueBlock), rfl, rfl, rfl⟩)

private theorem popLoop_resolved {g : LlirGenerator} (h : g.Resolves names outer) : g.popLoop.Resolves names outer :=
  (h.assert (g.breakBlocks ≠ [] ∧ g.continueBlocks ≠ [])).of_same id rfl rfl (fun _ => id) rfl

mutual

/-- Every name that the lowered statement mentions is declared. -/
private theorem generateStatement_resolved {c : Context} (hnames : ∀ method ∈ c.methods, method.identifier ∈ names)
    {returnType : IrDataType} {inLoop : Prop} (g : LlirGenerator) (loop : Option (Nat × Nat))
    (statement : IrStatement) (h : g.Resolves names outer) (hm : Matches c.scopes g.symbolTable)
    (inner : 1 ≤ c.scopes.length) (hl : g.InnermostLoop loop inLoop)
    (typed : StatementTyped readyRules returnType c inLoop statement) :
    (generateStatement g loop statement).Resolves names outer := by
  cases statement with
  | assignment assignment =>
    cases typed with
    | assignment typed => exact generateAssignment_resolved hnames h typed
  | methodCall identifier arguments =>
    cases typed with
    | methodCall typed => exact (generateMethodCall_resolved hnames g h identifier arguments typed).1
  | ifStatement condition ifBlock =>
    cases typed with
    | ifStatement hc hb =>
      have follows : g.Follows False _ _ := (generateExpression_follows g hm condition hc).andThen
        (branchNew_follows _ .equal false (generateExpression g condition).1 (.literal 0))
      exact (generateBlock_resolved hnames _ loop ifBlock (condition_resolved hnames h hc)
        (follows.matchesScopes hm) inner (follows.innermostLoop hl) hb).jumpTo _ _
  | ifElseStatement condition ifBlock elseBlock =>
    cases typed with
    | ifElseStatement hc hb he =>
      have follows : g.Follows False _ _ := (generateExpression_follows g hm condition hc).andThen
        (branchNew_follows _ .equal false (generateExpression g condition).1 (.literal 0))
      have second := (generateBlock_resolved hnames _ loop ifBlock (condition_resolved hnames h hc)
        (follows.matchesScopes hm) inner (follows.innermostLoop hl) hb).newBlock
      have between (target next : Nat) : g.Follows False _ _ := ((follows.trans (generateBlock_follows _ loop
        ifBlock (follows.matchesScopes hm) (follows.innermostLoop hl) hb False.elim)).andThen
          (newBlock_follows _)).andThen (jumpTo_follows _ target next)
      exact (generateBlock_resolved hnames _ loop elseBlock (second.jumpTo _ _) ((between _ _).matchesScopes hm)
        inner ((between _ _).innermostLoop hl) he).jumpTo _ _
  | forStatement initial condition update block =>
    cases typed with
    | forStatement hi hc hu hb =>
      have entered : g.Follows False _ _ := ((((generateAssignment_follows g hm hi).andThen
        (newBlock_follows _)).andThen (newBlock_follows _)).andThen (newBlock_follows _)).andThen
          (newBlock_follows _)
      have made := (generateAssignment_resolved hnames h hi).newBlock.newBlock.newBlock.newBlock
      have body := loopBlock_resolved hnames made (entered.matchesScopes hm) hc
        fun g loop h hm hl => generateBlock_resolved hnames g loop block h hm inner hl hb
      exact popLoop_resolved ((generateForUpdate_resolved hnames ((body _ _ _ _).jumpTo _ _) hu).jumpTo _ _)
  | whileStatement condition block =>
    cases typed with
    | whileStatement hc hb =>
      have entered : g.Follows False _ [] := ((newBlock_follows g).andThen (newBlock_follows _)).andThen
        (newBlock_follows _)
      have body := loopBlock_resolved hnames h.newBlock.newBlock.newBlock (entered.matchesScopes hm) hc
        fun g loop h hm hl => generateBlock_resolved hnames g loop block h hm inner hl hb
      exact popLoop_resolved ((body _ _ _ _).jumpTo _ _)
  | returnStatement expression =>
    cases typed with
    | returnStatement typed => exact generateReturnStatement_resolved hnames h typed
  | breakStatement => exact exit_resolved (h.assert (g.breakBlocks ≠ [])) _ _
  | continueStatement => exact exit_resolved (h.assert (g.continueBlocks ≠ [])) _ _

/-- Every name that the lowered block mentions is declared. -/
private theorem generateBlock_resolved {c : Context} (hnames : ∀ method ∈ c.methods, method.identifier ∈ names)
    {returnType : IrDataType} {inLoop : Prop} (g : LlirGenerator) (loop : Option (Nat × Nat)) (block : IrBlock)
    (h : g.Resolves names outer) (hm : Matches c.scopes g.symbolTable) (inner : 1 ≤ c.scopes.length)
    (hl : g.InnermostLoop loop inLoop) (typed : BlockTyped readyRules returnType c inLoop [] block) :
    (generateBlock g loop true block).Resolves names outer := by
  cases block with
  | mk fields statements =>
    cases typed with
    | mk scope typed =>
      have entered : Matches ([] :: c.scopes) g.symbolTablePushScope.symbolTable :=
        .cons (by simp) .nil (fun _ _ => rfl) hm
      obtain ⟨declared, hm'⟩ := generateBlockFields_declares entered scope.distinct scope.field False.elim
      rw [map_analyzed scope.field] at typed
      have pushed : g.symbolTablePushScope.Resolves names outer := by
        intro alive
        have code := h alive
        exact ⟨fun table mem => (List.mem_cons.mp mem).elim (fun same => by simp [same]) (code.table table),
          code.assignments, code.terminals⟩
      have filled := generateBlockFields_resolved fields pushed entered inner scope.distinct scope.field
      have body := generateStatements_resolved (c := c.enter ([] ++ fields)) hnames _ loop statements filled hm'
        (Nat.le_add_left 1 _) (declared.innermostLoop hl) typed
      exact body.symbolTablePopScope

/-- Every name that the lowered statements mention is declared. -/
private theorem generateStatements_resolved {c : Context} (hnames : ∀ method ∈ c.methods, method.identifier ∈ names)
    {returnType : IrDataType} {inLoop : Prop} (g : LlirGenerator) (loop : Option (Nat × Nat))
    (statements : IrStatements) (h : g.Resolves names outer) (hm : Matches c.scopes g.symbolTable)
    (inner : 1 ≤ c.scopes.length) (hl : g.InnermostLoop loop inLoop)
    (typed : StatementsTyped readyRules returnType c inLoop statements) :
    (generateStatements g loop statements).Resolves names outer := by
  cases statements with
  | nil => exact h
  | cons statement rest =>
    cases typed with
    | cons hs hr =>
      have follows : g.Follows False _ _ := generateStatement_follows g loop statement hm hl hs False.elim
      exact generateStatements_resolved hnames _ loop rest
        (generateStatement_resolved hnames g loop statement h hm inner hl hs) (follows.matchesScopes hm) inner
          (follows.innermostLoop hl) hr

end

end

structure LlirMethod.Resolved (names : List String) (globals : List LlirField) (writes : List LlirAssignment)
    (method : LlirMethod) : Prop where
  assignments : ∀ block ∈ method.blocks, ∀ assignment ∈ block.assignments,
    assignment.Resolved names (globals ++ method.fields) ∧ assignment.StoresBy writes
  terminals : ∀ block ∈ method.blocks, block.terminal.Resolved (globals ++ method.fields)

theorem LlirMethod.Resolved.mono {names : List String} {globals : List LlirField}
    {writes writes' : List LlirAssignment} {method : LlirMethod} (h : method.Resolved names globals writes)
    (subset : writes ⊆ writes') : method.Resolved names globals writes' :=
  ⟨fun block mem assignment mem' => ⟨(h.assignments block mem assignment mem').1,
    fun name => ((h.assignments block mem assignment mem').2 name).imp_left fun mem => subset mem⟩, h.terminals⟩

section
variable {names : List String} {globals : List LlirField} {g : LlirGenerator} {c : Context} {method : IrMethod}

def LlirGenerator.TableIn (globals : List LlirField) (g : LlirGenerator) : Prop :=
  ∀ table ∈ g.symbolTable, ∀ entry ∈ table, entry.2 ∈ globals

private theorem generateMethodArguments_table (fields : List IrField) {known : List LlirField} {g : LlirGenerator}
    (h : g.TableIn known) : (generateMethodArguments g fields).2.TableIn
      (known ++ (generateMethodArguments g fields).1) := by
  induction fields generalizing g known with
  | nil => simpa [generateMethodArguments] using h
  | cons field rest ih =>
    have tables : (generateField g field).2.symbolTable =
        (g.symbolTableSet field.identifier (generateField g field).1).symbolTable := by
      unfold generateField LlirGenerator.assert
      dsimp only
      split <;> rfl
    have first : (generateField g field).2.TableIn (known ++ [(generateField g field).1]) := by
      intro table mem entry mem'
      rw [tables] at mem
      unfold LlirGenerator.symbolTableSet at mem
      dsimp only at mem
      cases htables : g.symbolTable with
      | nil => simp [htables] at mem
      | cons outermost others =>
        rw [htables] at mem
        obtain rfl | mem := List.mem_cons.mp mem
        · obtain rfl | mem' := List.mem_cons.mp mem'
          · simp
          · exact List.mem_append_left _ (h outermost (htables ▸ List.mem_cons_self ..) entry mem')
        · exact List.mem_append_left _ (h table (htables ▸ List.mem_cons_of_mem _ mem) entry mem')
    have whole := ih first
    rw [List.append_assoc, List.singleton_append] at whole
    exact whole

/-- The generator at the start of a method has no code yet. -/
private theorem generateMethodStart_resolved (hm : Matches c.scopes g.symbolTable) (table : g.TableIn globals)
    (distinct : (method.arguments.map IrField.identifier).Nodup) (ready : ∀ field ∈ method.arguments, field.Ready) :
    (generateMethodStart g method).Resolves names (globals ++ (generateMethod g method).1.arguments) ∧
      Matches (method.arguments :: c.scopes) (generateMethodStart g method).symbolTable ∧
      (generateMethodStart g method).symbolTable.tail = g.symbolTable := by
  have entered : Matches ([] :: c.scopes) g.symbolTablePushScope.symbolTable :=
    .cons (by simp) .nil (fun _ _ => rfl) hm
  obtain ⟨_, declared, hm'⟩ : _ ∧ g.symbolTablePushScope.Declares False _ ∧ _ :=
    generateMethodArguments_declares entered (by simpa using distinct) ready
  have pushed : g.symbolTablePushScope.TableIn globals := by
    intro table' mem
    obtain rfl | mem := List.mem_cons.mp mem
    · simp
    · exact table table' mem
  have tables := generateMethodArguments_table method.arguments pushed
  refine ⟨fun _ => ⟨?_, ?_, ?_⟩, hm', declared.tail⟩
  · intro table' mem entry mem'
    exact List.mem_append_left _ (tables table' mem entry mem')
  · intro block mem
    obtain rfl := List.mem_singleton.mp mem
    simp [generateMethodStart, llirBlockNew]
  · intro block mem
    obtain rfl := List.mem_singleton.mp mem
    trivial

/-- Every name in a lowered method is a parameter, a local or a global. -/
private theorem generateMethod_resolved (hnames : ∀ other ∈ c.methods, other.identifier ∈ names)
    (hm : Matches c.scopes g.symbolTable) (inner : 1 ≤ c.scopes.length) (table : g.TableIn globals)
    (typed : BlockTyped readyRules method.returnType c False method.arguments method.block) :
    ((generateMethod g method).2.failed = false →
      (generateMethod g method).1.Resolved names globals (generateMethod g method).2.writes) ∧
      (generateMethod g method).2.symbolTable = g.symbolTable := by
  obtain ⟨fields, statements, block⟩ : ∃ fields statements, method.block = .mk fields statements := by
    cases method.block
    exact ⟨_, _, rfl⟩
  rw [block] at typed
  cases typed with
  | mk scope typed =>
    have distinct := scope.distinct
    rw [List.map_append, List.nodup_append] at distinct
    obtain ⟨start, hm', tail⟩ := generateMethodStart_resolved hm table distinct.1
      fun field mem => scope.field field (List.mem_append_left _ mem)
    have ready (field : IrField) (mem : field ∈ fields) : field.Ready :=
      scope.field field (List.mem_append_right _ mem)
    obtain ⟨declared, hm''⟩ : (generateMethodStart g method).Declares False _ ∧ _ :=
      generateBlockFields_declares hm' scope.distinct ready False.elim
    rw [map_analyzed scope.field] at typed
    have filled := generateBlockFields_resolved fields start hm' inner scope.distinct ready
    have noLoop : LlirGenerator.InnermostLoop (fields.foldl generateBlockField (generateMethodStart g method)) none
        False := fun inLoop => inLoop.elim
    have body := generateStatements_resolved (c := c.enter (method.arguments ++ fields)) hnames _ none statements filled
      hm'' (Nat.le_add_left 1 _) noLoop typed
    have follows : LlirGenerator.Follows False _ _ _ := generateStatements_follows
      (c := c.enter (method.arguments ++ fields)) _ none statements hm'' noLoop typed False.elim
    have same : generateMethodBody g method =
        generateStatements (fields.foldl generateBlockField (generateMethodStart g method)) none statements := by
      rw [generateMethodBody, block]
      rfl
    rw [← same] at body follows
    have popped := assert_grows ((generateMethodBody g method).setTerminal (methodEnd method))
      (((generateMethodBody g method).setTerminal (methodEnd method)).symbolTable ≠ [])
    have fields' : globals ++ (generateMethod g method).1.fields =
        (generateMethodBody g method).known (globals ++ (generateMethod g method).1.arguments) := by
      rw [LlirMethod.fields, LlirGenerator.known, List.append_assoc, generateMethod_eq]
      simp [LlirGenerator.layout, LlirGenerator.setTerminal, LlirBlock.withPredecessors, List.flatMap_map]
    refine ⟨fun alive => ?_, ?_⟩
    · have code := body (popped.succeeds alive)
      have writes : (generateMethod g method).2.writes = (generateMethodBody g method).writes := by
        change ((generateMethodBody g method).setTerminal (methodEnd method)).symbolTablePopScope.writes = _
        unfold LlirGenerator.symbolTablePopScope LlirGenerator.assert
        split <;> rfl
      have blocks : ∀ block ∈ (generateMethod g method).1.blocks,
          ∃ laid ∈ (generateMethodBody g method).layout, block.assignments = laid.assignments ∧
            (block.terminal = laid.terminal ∨ block.terminal = methodEnd method) := by
        intro block mem
        rw [generateMethod_eq] at mem
        obtain ⟨original, laid, rfl⟩ := List.mem_map.mp mem
        obtain mem | mem := List.mem_append.mp laid
        · exact ⟨original, List.mem_append_left _ mem, rfl, .inl rfl⟩
        · obtain rfl := List.mem_singleton.mp mem
          exact ⟨(generateMethodBody g method).currentBlock, by simp [LlirGenerator.layout], rfl, .inr rfl⟩
      constructor
      · intro block mem assignment mem'
        obtain ⟨laid, laidMem, assignments, -⟩ := blocks block mem
        rw [fields', writes]
        exact code.assignments laid laidMem assignment (assignments ▸ mem')
      · intro block mem
        obtain ⟨laid, laidMem, -, same | same⟩ := blocks block mem
        · rw [fields', same]
          exact code.terminals laid laidMem
        · rw [same]
          unfold methodEnd
          split <;> trivial
    · have tables : (generateMethod g method).2.symbolTable = (generateMethodBody g method).symbolTable.tail := by
        change ((generateMethodBody g method).setTerminal (methodEnd method)).symbolTablePopScope.symbolTable = _
        unfold LlirGenerator.symbolTablePopScope LlirGenerator.assert
        split <;> rfl
      rw [tables, follows.names.tail, declared.tail, tail]

/-- The methods come one by one, with the symbol table of the global fields. -/
private theorem generateMethods_resolved {methods : List IrMethod}
    (hnames : ∀ other ∈ c.methods, other.identifier ∈ names)
    (hmethods : ∀ other ∈ methods, other.identifier ∈ names) (hm : Matches c.scopes g.symbolTable)
    (inner : 1 ≤ c.scopes.length) (table : g.TableIn globals) (typed : MethodsTyped readyRules c methods)
    (alive : (generateMethods g methods).2.failed = false) :
    g.failed = false ∧ g.writes ⊆ (generateMethods g methods).2.writes ∧
      ∀ method ∈ (generateMethods g methods).1,
        method.Resolved names globals (generateMethods g methods).2.writes := by
  induction methods generalizing g c with
  | nil => exact ⟨alive, fun _ => id, by simp [generateMethods]⟩
  | cons method rest ih =>
    cases typed with
    | cons hmethod hrest =>
      have hnames' : ∀ other ∈ c.methods ++ [method], other.identifier ∈ names := by
        intro other mem
        obtain mem | mem := List.mem_append.mp mem
        · exact hnames other mem
        · exact hmethods other (List.mem_singleton.mp mem ▸ List.mem_cons_self ..)
      have follows : g.Follows False _ _ :=
        generateMethod_follows (c := ⟨c.scopes, c.methods ++ [method]⟩) hm hmethod False.elim
      obtain ⟨first, same⟩ := generateMethod_resolved (c := ⟨c.scopes, c.methods ++ [method]⟩) hnames' hm inner table
        hmethod
      obtain ⟨succeeds, writes, others⟩ := ih (c := ⟨c.scopes, c.methods ++ [method]⟩) hnames'
        (fun other mem => hmethods other (List.mem_cons_of_mem _ mem)) (follows.matchesScopes hm) inner
        (by rw [LlirGenerator.TableIn, same]; exact table) hrest alive
      have keeps := generateMethod_keeps g method
      exact ⟨keeps.1 succeeds, fun _ mem => writes (keeps.2 mem),
        List.forall_mem_cons.mpr ⟨(first succeeds).mono writes, others⟩⟩

end

def IrProgram.callable (program : IrProgram) : List String :=
  program.imports.map IrMethod.identifier ++ program.methods.map IrMethod.identifier

/-- All names in the code of a lowered program are resolved. -/
theorem IrProgram.Ready.resolved {program : IrProgram} (ready : program.Ready)
    (alive : (generateLlir program).2.failed = false) : ∀ method ∈ (generateLlir program).1.methods,
      method.Resolved program.callable (generateLlir program).1.fields (generateLlir program).2.writes := by
  obtain ⟨-, -, hm⟩ := ready.globals False
  have start : llirGeneratorNew.TableIn [] := by
    intro table mem
    obtain rfl := List.mem_singleton.mp mem
    simp
  have table := generateMethodArguments_table program.fields start
  rw [← generateGlobals_eq, List.nil_append] at table
  exact (generateMethods_resolved (c := ⟨[program.fields], program.imports⟩)
    (fun other mem => List.mem_append_left _ (List.mem_map_of_mem mem))
    (fun other mem => List.mem_append_right _ (List.mem_map_of_mem mem)) hm le_rfl table ready.methods_typed alive).2.2

end Roast
