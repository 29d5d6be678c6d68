import Roast.Parser.Linearization
import Roast.Semantics.IrConstruction

/-! Building the intermediate representation from the linear form of a derivation's tree gives the tree's own
representation, and takes exactly the nodes of the tree. -/
namespace Roast

def HasCharacters (source : List Char) (tokens : List Token) : Prop :=
  ∀ token ∈ tokens, token.type = .charLiteral → (charLiteralValue (tokenGetString source token)).isSome = true

theorem HasCharacters.mono {source : List Char} {tokens others : List Token} (characters : HasCharacters source tokens)
    (subset : others ⊆ tokens) : HasCharacters source others := fun token mem => characters token (subset mem)

namespace IrBuilder

variable {type : AstNodeType} {node : LinearNode} {nodes : List LinearNode} {allocated : Nat}

@[simp] theorem take_cons (same : node.type = type) : (⟨node :: nodes, allocated⟩ : IrBuilder).take type =
    some (node, ⟨nodes, allocated⟩) := by
  simp [take, same]

@[simp] theorem next_cons : (⟨node :: nodes, allocated⟩ : IrBuilder).next = some (node, ⟨nodes, allocated⟩) := rfl

@[simp] theorem peek_cons : (⟨node :: nodes, allocated⟩ : IrBuilder).peek = some node.type := rfl

private theorem skip_other (next : NextNot [type] nodes) : (⟨nodes, allocated⟩ : IrBuilder).skip type =
    some (false, ⟨nodes, allocated⟩) := by
  obtain ⟨node, rest, rfl, other⟩ := next
  simp only [List.mem_singleton] at other
  simp [skip, other]

end IrBuilder

def Takes {α : Type} (construct : IrBuilder → Option (α × IrBuilder)) (nodes : List LinearNode) (value : Nat → α × Nat)
    (rest : List LinearNode) : Prop :=
  ∀ allocated, construct ⟨nodes ++ rest, allocated⟩ = some ((value allocated).1, ⟨rest, (value allocated).2⟩)

/-- Items of one kind are rebuilt up to a node of another kind. -/
private theorem irMany_takes {α β : Type} {type : AstNodeType} {construct : IrBuilder → Option (β × IrBuilder)}
    {toNode : α → AstNode} {toIr : α → Nat → β × Nat} {items : List α} {rest : List LinearNode}
    (ends : List LinearNode → Prop) (n : Nat)
    (head : ∀ item ∈ items, ∃ node others, linearizeAst (toNode item) = node :: others ∧ node.type = type)
    (takes : ∀ item ∈ items, ∀ rest, ends rest → Takes construct (linearizeAst (toNode item)) (toIr item) rest)
    (between : ∀ item ∈ items, ∀ rest, ends (linearizeAst (toNode item) ++ rest)) (stops : ends rest) (other : NextNot [type] rest)
    (bound : items.length < n) :
    Takes (irMany type construct n) (linearizeChildren (items.map toNode)) (listToIr toIr items) rest := by
  induction items generalizing n with
  | nil =>
    intro allocated
    obtain ⟨n, rfl⟩ : ∃ k, n = k + 1 := ⟨n - 1, by omega⟩
    obtain ⟨node, rest, rfl, other⟩ := other
    simp only [List.mem_singleton] at other
    simp [irMany, linearizeChildren, other, listToIr]
  | cons item items ih =>
    intro allocated
    rw [List.length_cons] at bound
    obtain ⟨n, rfl⟩ : ∃ k, n = k + 1 := ⟨n - 1, by omega⟩
    have first := takes item List.mem_cons_self (linearizeChildren (items.map toNode) ++ rest) (by
      cases items with
      | nil => exact stops
      | cons second items =>
        rw [List.map_cons, linearizeChildren, List.append_assoc]
        exact between second (by simp) _) allocated
    have others := ih n (fun item mem => head item (List.mem_cons_of_mem _ mem))
      (fun item mem => takes item (List.mem_cons_of_mem _ mem))
      (fun item mem => between item (List.mem_cons_of_mem _ mem)) (by omega) (toIr item allocated).2
    obtain ⟨node, more, same, type⟩ := head item List.mem_cons_self
    rw [List.map_cons, linearizeChildren, List.append_assoc, irMany, IrBuilder.peek]
    simp only [first]
    simp [same, type, others, listToIr]

section
variable {source : List Char} {token : Token} {rest : List LinearNode} {allocated : Nat}

@[simp] theorem irIdentifierFromAst_cons : irIdentifierFromAst source ⟨⟨.identifier, some token⟩ :: rest, allocated⟩ =
    some (tokenString source token, ⟨rest, allocated⟩) := by
  simp [irIdentifierFromAst, tokenString]

@[simp] theorem irStringLiteralFromAst_cons :
    irStringLiteralFromAst source ⟨⟨.stringLiteral, some token⟩ :: rest, allocated⟩ =
      some (tokenString source token, ⟨rest, allocated⟩) := by
  simp [irStringLiteralFromAst, tokenString]

private theorem irDataTypeFromAst_cons (htype : token.type ∈ TYPES) :
    irDataTypeFromAst ⟨⟨.dataType, some token⟩ :: rest, allocated⟩ = some (irDataType token.type, ⟨rest, allocated⟩) := by
  simp only [TYPES, List.mem_cons, List.not_mem_nil, or_false] at htype
  rcases htype with same | same <;> simp [irDataTypeFromAst, same, irDataType]

/-- A literal is rebuilt from its nodes. -/
private theorem irLiteralNew_takes {literal : AstLiteral} (rest : List LinearNode) (allocated : Nat)
    (kind : literal.value.type ∈ BOOL_LITERALS ++ INT_LITERALS ++ [TokenType.charLiteral])
    (character : literal.value.type = .charLiteral →
      (charLiteralValue (tokenGetString source literal.value)).isSome = true) :
    irLiteralNew source ⟨linearizeAst literal.toNode ++ rest, allocated⟩ =
      some (literal.toIr source, ⟨rest, allocated⟩) := by
  obtain ⟨negation, value⟩ := literal
  simp only [BOOL_LITERALS, INT_LITERALS, List.cons_append, List.nil_append, List.mem_cons, List.not_mem_nil,
    or_false] at kind character
  rw [linearizeAst_literal]
  rcases kind with type | type | type | type | type
  · cases negation <;> simp [irLiteralNew, IrBuilder.skip, irBoolLiteralFromAst, AstLiteral.toIr, literalNodeType, type]
  · cases negation <;> simp [irLiteralNew, IrBuilder.skip, irBoolLiteralFromAst, AstLiteral.toIr, literalNodeType, type]
  · cases negation <;> simp [irLiteralNew, IrBuilder.skip, irIntLiteralNode, AstLiteral.toIr, literalNodeType, type]
  · cases negation <;> simp [irLiteralNew, IrBuilder.skip, irIntLiteralNode, AstLiteral.toIr, literalNodeType, type]
  · obtain ⟨found, same⟩ := Option.isSome_iff_exists.mp (character type)
    cases negation <;>
      simp [irLiteralNew, IrBuilder.skip, irCharLiteralFromAst, AstLiteral.toIr, literalNodeType, type, same]

end

section
variable (source : List Char)

private theorem irBinaryOperator_some {type : TokenType} (operator : type ∈ BINARY_OPERATORS) :
    ∃ found, irBinaryOperator type = some found := by
  revert operator
  cases type <;> simp [BINARY_OPERATORS, irBinaryOperator]

variable {source}

private theorem irMethodCallNew_takes {n : Nat} (name : Token) {arguments : AstArguments} {rest : List LinearNode}
    (operands : Takes (irArgumentsNew source (irExpressionNew source n) n)
      (linearizeChildren arguments.toNodes ++ [⟨.methodCallEnd, none⟩]) (arguments.toIr source) rest) :
    Takes (irMethodCallNew source (irExpressionNew source n) n) (linearizeAst (AstCall.toNode ⟨name, arguments⟩))
      (AstCall.toIr source ⟨name, arguments⟩) rest := by
  intro allocated
  have taken := operands allocated
  simp only [List.append_assoc, List.cons_append, List.nil_append] at taken
  rw [linearizeAst_call]
  simp [irMethodCallNew, AstCall.toIr, taken]

private theorem irExpressionNew_literal {n : Nat} {tokens : List Token} {literal : AstLiteral} {rest : List LinearNode}
    (kind : literal.value.type ∈ BOOL_LITERALS ++ INT_LITERALS ++ [TokenType.charLiteral])
    (member : literal.value ∈ tokens) (characters : HasCharacters source tokens) :
    Takes (irExpressionNew source (n + 1)) (linearizeAst (AstExpression.literal literal).toNode)
      ((AstExpression.literal literal).toIr source) rest := by
  intro allocated
  have taken := irLiteralNew_takes rest allocated kind (characters _ member)
  obtain ⟨nodes, same⟩ : ∃ nodes, linearizeAst literal.toNode = ⟨.literal, none⟩ :: nodes :=
    ⟨_, linearizeAst_literal literal⟩
  rw [linearizeAst_literalExpression]
  rw [same] at taken ⊢
  simp only [List.cons_append] at taken
  simp [irExpressionNew, AstExpression.toIr, taken]

private theorem irExpressionNew_call {n : Nat} {name : Token} {arguments : AstArguments} {rest : List LinearNode}
    (operands : Takes (irArgumentsNew source (irExpressionNew source n) n)
      (linearizeChildren arguments.toNodes ++ [⟨.methodCallEnd, none⟩]) (arguments.toIr source) rest) :
    Takes (irExpressionNew source (n + 1)) (linearizeAst (AstExpression.methodCall name arguments).toNode)
      ((AstExpression.methodCall name arguments).toIr source) rest := by
  intro allocated
  have taken := irMethodCallNew_takes name operands allocated
  rw [linearizeAst_methodCall]
  rw [linearizeAst_call] at taken ⊢
  simp only [List.cons_append, List.append_assoc, List.nil_append] at taken
  simp [irExpressionNew, AstExpression.toIr, taken, AstCall.toIr]

private theorem irArgumentsNew_nil {expression : IrBuilder → Option (IrExpression × IrBuilder)} {k : Nat}
    {rest : List LinearNode} :
    Takes (irArgumentsNew source expression (k + 1))
      (linearizeChildren AstArguments.nil.toNodes ++ [⟨.methodCallEnd, none⟩]) (AstArguments.nil.toIr source) rest := by
  intro allocated
  simp [irArgumentsNew, AstArguments.toNodes, linearizeChildren, AstArguments.toIr]

private theorem irArgumentsNew_string {expression : IrBuilder → Option (IrExpression × IrBuilder)} {k : Nat}
    {string : Token}
    {arguments : AstArguments} {rest : List LinearNode}
    (others : Takes (irArgumentsNew source expression k)
      (linearizeChildren arguments.toNodes ++ [⟨.methodCallEnd, none⟩]) (arguments.toIr source) rest) :
    Takes (irArgumentsNew source expression (k + 1))
      (linearizeChildren (AstArguments.string string arguments).toNodes ++ [⟨.methodCallEnd, none⟩])
      ((AstArguments.string string arguments).toIr source) rest := by
  intro allocated
  have taken := others allocated
  simp only [List.append_assoc, List.cons_append, List.nil_append] at taken
  simp [linearizeChildren_string, irArgumentsNew, taken, AstArguments.toIr]

private theorem irArgumentsNew_expression {construct : IrBuilder → Option (IrExpression × IrBuilder)} {k : Nat}
    {expression : AstExpression} {arguments : AstArguments} {rest : List LinearNode}
    (first : Takes construct (linearizeAst expression.toNode) (expression.toIr source)
      (linearizeChildren arguments.toNodes ++ ⟨.methodCallEnd, none⟩ :: rest))
    (others : Takes (irArgumentsNew source construct k)
      (linearizeChildren arguments.toNodes ++ [⟨.methodCallEnd, none⟩]) (arguments.toIr source) rest) :
    Takes (irArgumentsNew source construct (k + 1))
      (linearizeChildren (AstArguments.expression expression arguments).toNodes ++ [⟨.methodCallEnd, none⟩])
      ((AstArguments.expression expression arguments).toIr source) rest := by
  intro allocated
  have argument := first allocated
  have taken := others (expression.toIr source allocated).2
  obtain ⟨nodes, same⟩ := linearizeAst_expression expression
  rw [linearizeChildren_expression]
  simp only [List.append_assoc, List.cons_append, List.nil_append, same] at argument taken ⊢
  simp [irArgumentsNew, argument, taken, AstArguments.toIr]

mutual

/-- An operand is rebuilt from its nodes. -/
theorem DerivesUnary.takes {source : List Char} {tokens : List Token} {expression : AstExpression} :
    DerivesUnary tokens expression → HasCharacters source tokens → ∀ n rest,
      (linearizeAst expression.toNode).length ≤ n → NextNot [.locationIndex] rest →
      Takes (irExpressionNew source n) (linearizeAst expression.toNode) (expression.toIr source) rest
  | .len _ _ _ _ => by
    rintro characters (_ | n) rest bound next allocated
    · simp [linearizeAst_len] at bound
    · simp [linearizeAst_len, irExpressionNew, irLengthExpressionNew, AstExpression.toIr]
  | .not hoperator operand => by
    rintro characters (_ | n) rest bound next allocated
    · simp [linearizeAst_not] at bound
    · simp only [linearizeAst_not, List.length_cons] at bound
      have taken := operand.takes (characters.mono (by simp)) n rest (by omega) next allocated
      simp [linearizeAst_not, irExpressionNew, taken, AstExpression.toIr]
  | .negate hoperator operand head => by
    rintro characters (_ | n) rest bound next allocated
    · simp [linearizeAst_negate] at bound
    · simp only [linearizeAst_negate, List.length_cons] at bound
      have taken := operand.takes (characters.mono (by simp)) n rest (by omega) next allocated
      simp [linearizeAst_negate, irExpressionNew, taken, AstExpression.toIr]
  | .literal kind => by
    rintro characters (_ | n) rest bound next
    · simp [linearizeAst_literalExpression] at bound
    · exact irExpressionNew_literal kind (by simp) characters
  | .negatedLiteral sign kind => by
    rintro characters (_ | n) rest bound next
    · simp [linearizeAst_literalExpression] at bound
    · exact irExpressionNew_literal (List.mem_append_left _ (List.mem_append_right _ kind)) (by simp) characters
  | .call hname hopening hclosing => by
    rintro characters (_ | n) rest bound next
    · simp [linearizeAst_methodCall] at bound
    · apply irExpressionNew_call
      obtain ⟨k, rfl⟩ : ∃ k, n = k + 1 := ⟨n - 1, by simp [linearizeAst_methodCall, linearizeAst_call] at bound; omega⟩
      exact irArgumentsNew_nil
  | .callWith hname hopening operands => by
    rintro characters (_ | n) rest bound next
    · simp [linearizeAst_methodCall] at bound
    · simp only [linearizeAst_methodCall, linearizeAst_call, List.length_cons, List.length_append, List.length_nil] at bound
      apply irExpressionNew_call
      apply operands.takes (characters.mono (by intro token mem; simp [mem])) n n rest (by omega) (by omega)
  | .scalar hname => by
    rintro characters (_ | n) rest bound next allocated
    · simp [linearizeAst_scalar] at bound
    · simp [linearizeAst_scalar, irExpressionNew, irLocationNew, IrBuilder.allocate, IrBuilder.skip_other next,
        AstExpression.toIr]
  | .element hname hopening operand hclosing => by
    rintro characters (_ | n) rest bound next allocated
    · simp [linearizeAst_element] at bound
    · simp only [linearizeAst_element, List.length_cons] at bound
      have taken := operand.takes (characters.mono (by intro token mem; simp [mem])) n rest (by omega) next (allocated + 1)
      simp [linearizeAst_element, irExpressionNew, irLocationNew, IrBuilder.allocate, IrBuilder.skip, taken,
        AstExpression.toIr]
  | .parenthesis hopening operand hclosing => fun characters n rest bound next =>
    operand.takes (characters.mono (by intro token mem; simp [mem])) n rest bound next

/-- An expression is rebuilt from its nodes. -/
theorem DerivesBinary.takes {source : List Char} {level : Nat} {tokens : List Token} {expression : AstExpression} :
    DerivesBinary level tokens expression → HasCharacters source tokens → ∀ n rest,
      (linearizeAst expression.toNode).length ≤ n → NextNot [.locationIndex] rest →
      Takes (irExpressionNew source n) (linearizeAst expression.toNode) (expression.toIr source) rest
  | .unary operand => operand.takes
  | @DerivesBinary.binary _ operator _ _ _ right hoperator hlevel hleft hright => by
    rintro characters (_ | n) rest bound next allocated
    · simp [linearizeAst_binary] at bound
    · simp only [linearizeAst_binary, List.length_cons, List.length_append] at bound
      have left := hleft.takes (characters.mono (by intro token mem; simp [mem])) n
        (⟨.binaryOperator, some operator⟩ :: (linearizeAst right.toNode ++ rest)) (by omega)
        (nextNot_cons (by simp)) allocated
      have right := hright.takes (characters.mono (by intro token mem; simp [mem])) n rest (by omega) next
      obtain ⟨found, same⟩ := irBinaryOperator_some hoperator
      simp [linearizeAst_binary, irExpressionNew, irBinaryExpressionNew, left, right _, same, AstExpression.toIr]

/-- Arguments are rebuilt from their nodes up to the end of the call. -/
theorem DerivesArguments.takes {source : List Char} {tokens : List Token} {arguments : AstArguments} :
    DerivesArguments tokens arguments → HasCharacters source tokens → ∀ n k rest,
      (linearizeChildren arguments.toNodes).length ≤ n → (linearizeChildren arguments.toNodes).length < k →
      Takes (irArgumentsNew source (irExpressionNew source n) k)
        (linearizeChildren arguments.toNodes ++ [⟨.methodCallEnd, none⟩]) (arguments.toIr source) rest
  | .lastString hstring hclosing => by
    rintro characters n (_ | _ | k) rest bound deep
    · omega
    · simp [linearizeChildren_string] at deep
    · exact irArgumentsNew_string irArgumentsNew_nil
  | .lastExpression operand hclosing => by
    rintro characters n (_ | _ | k) rest bound deep
    · omega
    · simp [linearizeChildren_expression] at deep
    · simp only [linearizeChildren_expression, List.length_cons, List.length_append] at bound
      have next := nextNot_arguments .nil rest
      have first := operand.takes (characters.mono (by intro token mem; simp [mem])) n _ (by omega) next
      exact irArgumentsNew_expression first irArgumentsNew_nil
  | .string hstring hseparator operands => by
    rintro characters n (_ | k) rest bound deep
    · omega
    · simp only [linearizeChildren_string, List.length_cons] at bound deep
      have others := operands.takes (characters.mono (by intro token mem; simp [mem])) n k rest (by omega) (by omega)
      exact irArgumentsNew_string others
  | @DerivesArguments.expression _ _ _ _ arguments operand hseparator operands => by
    rintro characters n (_ | k) rest bound deep
    · omega
    · simp only [linearizeChildren_expression, List.length_cons, List.length_append] at bound deep
      have next := nextNot_arguments arguments rest
      have first := operand.takes (characters.mono (by intro token mem; simp [mem])) n _ (by omega) next
      have others := operands.takes (characters.mono (by intro token mem; simp [mem])) n k rest (by omega) (by omega)
      exact irArgumentsNew_expression first others

end

section
variable {tokens : List Token}

/-- A location is rebuilt from its nodes. -/
theorem DerivesLocation.takes {location : AstLocation} (derives : DerivesLocation tokens location)
    (characters : HasCharacters source tokens) (n : Nat) (rest : List LinearNode)
    (bound : (linearizeAst location.toNode).length ≤ n)
    (next : NextNot [.locationIndex] rest) :
    Takes (irLocationNew source (irExpressionNew source n)) (linearizeAst location.toNode) (location.toIr source) rest := by
  intro allocated
  cases derives with
  | scalar hname =>
    simp [AstLocation.toNode, linearizeAst_inner, linearizeAst_leaf, linearizeChildren, AstNodeType.terminating,
      irLocationNew, IrBuilder.allocate, IrBuilder.skip_other next, AstLocation.toIr]
  | element hname hopening operand hclosing =>
    simp only [AstLocation.toNode, linearizeAst_inner, linearizeAst_leaf, linearizeChildren, AstNodeType.terminating,
      List.append_nil, List.length_cons, List.cons_append, List.nil_append] at bound
    have taken := operand.takes (characters.mono (by intro token mem; simp [mem])) n rest (by omega) next (allocated + 1)
    simp [AstLocation.toNode, linearizeAst_inner, linearizeAst_leaf, linearizeChildren, AstNodeType.terminating,
      irLocationNew, IrBuilder.allocate, IrBuilder.skip, taken, AstLocation.toIr]

/-- A call is rebuilt from its nodes. -/
theorem DerivesCall.takes {call : AstCall} (derives : DerivesCall tokens call)
    (characters : HasCharacters source tokens) (n : Nat) (rest : List LinearNode)
    (bound : (linearizeAst call.toNode).length ≤ n) :
    Takes (irMethodCallNew source (irExpressionNew source n) n) (linearizeAst call.toNode) (call.toIr source) rest := by
  rw [linearizeAst_call] at bound
  simp only [List.length_cons, List.length_append, List.length_nil] at bound
  cases derives with
  | empty hname hopening hclosing =>
    obtain ⟨k, rfl⟩ : ∃ k, n = k + 1 := ⟨n - 1, by omega⟩
    exact irMethodCallNew_takes _ irArgumentsNew_nil
  | arguments hname hopening operands =>
    dsimp only at bound
    apply irMethodCallNew_takes
    exact operands.takes (characters.mono (by intro token mem; simp [mem])) n n rest (by omega) (by omega)

private theorem irAssignOperator_assign {type : TokenType} (operator : type ∈ ASSIGN_OPERATORS) :
    ∃ found, irAssignOperator type = some found ∧ found ≠ .increment ∧ found ≠ .decrement := by
  revert operator
  cases type <;> simp [ASSIGN_OPERATORS, irAssignOperator]

private theorem irAssignOperator_increment {type : TokenType} (operator : type ∈ INCREMENT_OPERATORS) :
    ∃ found, irAssignOperator type = some found ∧ (found = .increment ∨ found = .decrement) := by
  revert operator
  cases type <;> simp [INCREMENT_OPERATORS, irAssignOperator]

/-- An assignment is rebuilt from its nodes. -/
theorem DerivesAssignment.takes {assignment : AstAssignment} (derives : DerivesAssignment tokens assignment)
    (characters : HasCharacters source tokens) (n : Nat) (rest : List LinearNode)
    (bound : (linearizeAst assignment.toNode).length ≤ n)
    (next : NextNot [.locationIndex] rest) :
    Takes (irAssignmentNew source n) (linearizeAst assignment.toNode) (assignment.toIr source) rest := by
  intro allocated
  cases derives with
  | @assign operator _ _ location expression hlocation hoperator hexpression =>
    simp only [linearizeAst_assign, List.length_cons, List.length_append] at bound
    have target := hlocation.takes (characters.mono (by intro token mem; simp [mem])) n
      (⟨.assignOperator, some operator⟩ :: (linearizeAst expression.toNode ++ rest)) (by omega)
      (nextNot_cons (by simp)) allocated
    have value := hexpression.takes (characters.mono (by intro token mem; simp [mem])) n rest (by omega) next
    obtain ⟨found, same, increment, decrement⟩ := irAssignOperator_assign hoperator
    simp [linearizeAst_assign, irAssignmentNew, target, same, increment, decrement, value _, AstAssignment.toIr]
  | @increment operator _ location hlocation hoperator =>
    simp only [linearizeAst_increment, List.length_cons, List.length_append, List.length_nil] at bound
    have target := hlocation.takes (characters.mono (by intro token mem; simp [mem])) n
      (⟨.incrementOperator, some operator⟩ :: rest) (by omega) (nextNot_cons (by simp)) allocated
    obtain ⟨found, same, kind⟩ := irAssignOperator_increment hoperator
    rcases kind with rfl | rfl <;>
      simp [linearizeAst_increment, irAssignmentNew, target, same, AstAssignment.toIr]

theorem DerivesForUpdate.takes {update : AstForUpdate} (derives : DerivesForUpdate tokens update)
    (characters : HasCharacters source tokens) (n : Nat) (rest : List LinearNode)
    (bound : (linearizeAst update.toNode).length ≤ n)
    (next : NextNot [.locationIndex] rest) :
    Takes (irForUpdateNew source n) (linearizeAst update.toNode) (update.toIr source) rest := by
  intro allocated
  cases derives with
  | @methodCall call hcall =>
    simp only [linearizeAst_updateCall, List.length_cons] at bound
    have taken := hcall.takes characters n rest (by omega) allocated
    obtain ⟨nodes, same⟩ := linearizeAst_callHead call
    rw [linearizeAst_updateCall]
    rw [same] at taken ⊢
    simp only [List.cons_append] at taken
    simp [irForUpdateNew, taken, AstForUpdate.toIr]
  | @assignment assignment hassignment =>
    simp only [linearizeAst_updateAssignment, List.length_cons] at bound
    have taken := hassignment.takes characters n rest (by omega) next allocated
    obtain ⟨nodes, same⟩ := linearizeAst_assignment assignment
    rw [linearizeAst_updateAssignment]
    rw [same] at taken ⊢
    simp only [List.cons_append] at taken
    simp [irForUpdateNew, taken, AstForUpdate.toIr]

private theorem Separated.mem_derives {α : Type} {language : List Token → α → Prop} {close : TokenType}
    {tokens : List Token}
    {items : List α} (separated : Separated language close tokens items) :
    ∀ item ∈ items, ∃ part, part ⊆ tokens ∧ language part item := by
  induction separated with
  | @last tokens item closing mem hclosing =>
    intro found member
    rw [List.mem_singleton.mp member]
    exact ⟨tokens, List.subset_append_left _ _, mem⟩
  | @cons tokens rest item items separator mem hseparator others ih =>
    intro found member
    rcases List.mem_cons.mp member with rfl | member
    · exact ⟨tokens, List.subset_append_left _ _, mem⟩
    · obtain ⟨part, subset, derives⟩ := ih found member
      exact ⟨part, fun token inside => by simp [subset inside], derives⟩

private theorem Repeated.mem_derives {α : Type} {language : List Token → α → Prop} {tokens : List Token}
    {items : List α}
    (repeated : Repeated language tokens items) : ∀ item ∈ items, ∃ part, part ⊆ tokens ∧ language part item := by
  induction repeated with
  | nil =>
    intro found member
    cases member
  | @cons tokens rest item items mem others ih =>
    intro found member
    rcases List.mem_cons.mp member with rfl | member
    · exact ⟨tokens, List.subset_append_left _ _, mem⟩
    · obtain ⟨part, subset, derives⟩ := ih found member
      exact ⟨part, fun token inside => by simp [subset inside], derives⟩

private theorem listToIr_map {α β : Type} (convert : α → β) (items : List α) (allocated : Nat) :
    listToIr (fun item allocated => (convert item, allocated)) items allocated = (items.map convert, allocated) := by
  induction items with
  | nil => rfl
  | cons item items ih => simp [listToIr, ih]

theorem DerivesLiteral.takes {literal : AstLiteral} (derives : DerivesLiteral tokens literal)
    (characters : HasCharacters source tokens) (rest : List LinearNode) :
    Takes (irLiteralNew source) (linearizeAst literal.toNode) (fun allocated => (literal.toIr source, allocated)) rest := by
  intro allocated
  cases derives with
  | plain kind => exact irLiteralNew_takes rest allocated kind (characters _ (by simp))
  | negated sign kind => exact irLiteralNew_takes rest allocated kind (characters _ (by simp))

private theorem irMany_literals {literals : List AstLiteral} (characters : HasCharacters source tokens)
    (derives : ∀ literal ∈ literals, ∃ part, part ⊆ tokens ∧ DerivesLiteral part literal) (n : Nat)
    (rest : List LinearNode) (bound : literals.length < n) (next : NextNot [.literal] rest) :
    Takes (irMany .literal (irLiteralNew source) n) (linearizeChildren (literals.map AstLiteral.toNode))
      (fun allocated => (literals.map (AstLiteral.toIr source), allocated)) rest := by
  intro allocated
  have one : ∀ literal ∈ literals, ∀ rest, True → Takes (irLiteralNew source) (linearizeAst literal.toNode)
      (fun allocated => (literal.toIr source, allocated)) rest := by
    intro literal mem rest _
    obtain ⟨part, subset, found⟩ := derives literal mem
    exact found.takes (characters.mono subset) rest
  have taken := irMany_takes (fun _ => True) n (fun literal _ => ⟨_, _, linearizeAst_literal literal, rfl⟩) one
    (fun _ _ _ => trivial) trivial next bound allocated
  rwa [listToIr_map] at taken

/-- An initializer is rebuilt from its nodes. -/
theorem DerivesInitializer.takes {initializer : AstInitializer} (derives : DerivesInitializer tokens initializer)
    (characters : HasCharacters source tokens) (n : Nat) (rest : List LinearNode)
    (bound : (linearizeAst initializer.toNode).length ≤ n) (next : NextNot [.literal] rest) :
    Takes (irInitializerNew source n) (linearizeAst initializer.toNode)
      (fun allocated => (initializer.toIr source, allocated)) rest := by
  intro allocated
  cases derives with
  | @scalar _ literal hliteral =>
    rw [linearizeAst_scalarInitializer, linearizeAst_literal] at bound
    simp only [List.length_cons, List.length_append] at bound
    have derives : ∀ found ∈ [literal], ∃ part, part ⊆ tokens ∧ DerivesLiteral part found := by
      intro found mem
      rw [List.mem_singleton.mp mem]
      exact ⟨tokens, fun _ inside => inside, hliteral⟩
    have short : [literal].length < n := by
      rw [List.length_singleton]
      omega
    have literals := irMany_literals characters derives n rest short next allocated
    obtain ⟨nodes, same⟩ : ∃ nodes, linearizeAst literal.toNode = ⟨.literal, none⟩ :: nodes :=
      ⟨_, linearizeAst_literal literal⟩
    simp only [linearizeChildren, List.map_cons, List.map_nil, List.append_nil, same, List.cons_append] at literals
    rw [linearizeAst_scalarInitializer, same]
    simp [irInitializerNew, IrBuilder.skip, literals, AstInitializer.toIr]
  | @array _ _ items hopening hliterals =>
    rw [linearizeAst_arrayInitializer] at bound
    simp only [List.length_cons] at bound
    have long := length_le_linearizeChildren (items.map AstLiteral.toNode)
    rw [List.length_map] at long
    have literals := irMany_literals (characters.mono (List.subset_cons_self _ _)) hliterals.mem_derives n rest
      (by omega) next allocated
    simp [linearizeAst_arrayInitializer, irInitializerNew, IrBuilder.skip, literals, AstInitializer.toIr]

variable (source) in
/-- An array length is rebuilt from its nodes. -/
theorem DerivesLength.takes {length : AstLength} (derives : DerivesLength tokens length) (type : IrDataType)
    (rest : List LinearNode) (next : NextNot [.emptyArrayLength, .intLiteral] rest) :
    Takes (irLengthNew source type) (linearizeChildren length.toNodes)
      (fun allocated => (length.toIr source type, allocated)) rest := by
  intro allocated
  cases derives with
  | none =>
    obtain ⟨node, rest, rfl, other⟩ := next
    simp only [List.mem_cons, List.not_mem_nil, or_false, not_or] at other
    rw [AstLength.toNodes, linearizeChildren, List.nil_append, irLengthNew, IrBuilder.peek_cons, Option.bind_eq_bind,
      Option.bind_some]
    split <;> simp_all [AstLength.toIr]
  | empty hopening hclosing =>
    simp [AstLength.toNodes, linearizeChildren, linearizeAst_inner, AstNodeType.terminating, irLengthNew, AstLength.toIr]
  | literal hopening hlength hclosing =>
    simp [AstLength.toNodes, linearizeChildren, linearizeAst_leaf, AstNodeType.terminating, irLengthNew,
      irIntLiteralNode, AstLength.toIr]

/-- A declarator is rebuilt from its nodes. -/
theorem DerivesDeclarator.takes {declarator : AstDeclarator} (derives : DerivesDeclarator tokens declarator)
    (characters : HasCharacters source tokens) (constant : Bool) (type : IrDataType) (n : Nat) (rest : List LinearNode)
    (bound : (linearizeAst declarator.toNode).length ≤ n) (next : NextNot declaratorNodes rest) :
    Takes (irFieldNew source n constant type) (linearizeAst declarator.toNode) (declarator.toIr source constant type)
      rest := by
  intro allocated
  cases derives with
  | @plain name part length hname hlength =>
    have taken := hlength.takes source type rest (next.mono (by simp)) (allocated + 1)
    obtain ⟨node, others, rfl, other⟩ := next
    simp only [List.mem_cons, List.not_mem_nil, or_false, not_or] at other
    simp [linearizeAst_plain, irFieldNew, IrBuilder.allocate, taken, other, AstDeclarator.toIr]
  | @initialized name equals part tail length initializer hname hlength hequals hinitializer =>
    simp only [linearizeAst_initialized, List.length_cons, List.length_append] at bound
    have value := hinitializer.takes (characters.mono (by intro token mem; simp [mem])) n rest (by omega)
      (next.mono (by simp)) (allocated + 1)
    obtain ⟨nodes, same⟩ := linearizeAst_initializer initializer
    have taken := hlength.takes source type (linearizeAst initializer.toNode ++ rest)
      (same ▸ nextNot_cons (by simp)) (allocated + 1)
    rw [linearizeAst_initialized]
    rw [same] at value taken ⊢
    simp only [List.cons_append] at value taken
    simp [irFieldNew, IrBuilder.allocate, taken, value, AstDeclarator.toIr]

/-- The fields of a declaration are rebuilt from its nodes. -/
theorem DerivesField.takes {field : AstField} (derives : DerivesField tokens field)
    (characters : HasCharacters source tokens) (n : Nat) (rest : List LinearNode)
    (bound : (linearizeAst field.toNode).length ≤ n) (next : NextNot fieldNodes rest) :
    Takes (iterateFields source n) (linearizeAst field.toNode) (field.toIr source) rest := by
  intro allocated
  have parts : field.type.type ∈ TYPES ∧
      ∀ item ∈ field.declarators, ∃ part, part ⊆ tokens ∧ DerivesDeclarator part item := by
    cases derives with
    | ordinary htype hdeclarators =>
      refine ⟨htype, fun item mem => ?_⟩
      obtain ⟨part, subset, found⟩ := hdeclarators.mem_derives item mem
      exact ⟨part, fun token inside => by simp [subset inside], found⟩
    | constant hkeyword htype hdeclarators =>
      refine ⟨htype, fun item mem => ?_⟩
      obtain ⟨part, subset, found⟩ := hdeclarators.mem_derives item mem
      exact ⟨part, fun token inside => by simp [subset inside], found⟩
  obtain ⟨constant, type, declarators⟩ := field
  rw [linearizeAst_field] at bound ⊢
  simp only [List.length_cons, List.length_append] at bound
  have long := length_le_linearizeChildren (declarators.map AstDeclarator.toNode)
  rw [List.length_map] at long
  have one : ∀ item ∈ declarators, ∀ rest, NextNot declaratorNodes rest →
      Takes (irFieldNew source n constant (irDataType type.type)) (linearizeAst item.toNode)
        (item.toIr source constant (irDataType type.type)) rest := by
    intro item mem rest next
    obtain ⟨part, subset, found⟩ := parts.2 item mem
    have short := length_linearizeAst_le (List.mem_map_of_mem (f := AstDeclarator.toNode) mem)
    exact found.takes (characters.mono subset) constant (irDataType type.type) n rest (by omega) next
  have taken := irMany_takes (NextNot declaratorNodes) n (fun item _ => ⟨_, _, rfl, rfl⟩) one
    (fun _ _ _ => nextNot_cons (by simp)) (next.mono (by simp)) (next.mono (by simp)) (by omega) allocated
  cases constant <;>
    simp [iterateFields, IrBuilder.skip, irDataTypeFromAst_cons parts.1, taken, AstField.toIr]

/-- The fields of a block are rebuilt in order. -/
private theorem irFieldsNew_takes {fields : List AstField} (derives : Repeated DerivesField tokens fields)
    (characters : HasCharacters source tokens) (n : Nat) (rest : List LinearNode)
    (bound : (linearizeChildren (fields.map AstField.toNode)).length < n)
    (next : NextNot (.field :: fieldNodes) rest) :
    Takes (irFieldsNew source n) (linearizeChildren (fields.map AstField.toNode)) (fieldsToIr source fields) rest := by
  intro allocated
  have long := length_le_linearizeChildren (fields.map AstField.toNode)
  rw [List.length_map] at long
  have one : ∀ field ∈ fields, ∀ rest, NextNot fieldNodes rest →
      Takes (iterateFields source n) (linearizeAst field.toNode) (field.toIr source) rest := by
    intro field mem rest next
    obtain ⟨part, subset, found⟩ := derives.mem_derives field mem
    have short := length_linearizeAst_le (List.mem_map_of_mem (f := AstField.toNode) mem)
    exact found.takes (characters.mono subset) n rest (by omega) next
  have taken := irMany_takes (NextNot fieldNodes) n (fun field _ => ⟨_, _, linearizeAst_field field, rfl⟩) one
    (fun field _ _ => linearizeAst_field field ▸ nextNot_cons (by simp)) (next.mono (by simp)) (next.mono (by simp))
    (by omega) allocated
  simp [irFieldsNew, taken, fieldsToIr]

end

theorem DerivesCondition.takes {keyword : TokenType} {tokens : List Token} {condition : AstExpression}
    (derives : DerivesCondition keyword tokens condition) (characters : HasCharacters source tokens) (n : Nat)
    (rest : List LinearNode) (bound : (linearizeAst condition.toNode).length ≤ n) (next : NextNot [.locationIndex] rest) :
    Takes (irExpressionNew source n) (linearizeAst condition.toNode) (condition.toIr source) rest := by
  cases derives with
  | mk hfirst hopening hcondition hclosing =>
    exact hcondition.takes (characters.mono (by intro token mem; simp [mem])) n rest bound next

/-- The three parts between the parentheses of a for statement. -/
theorem DerivesFor.takes {tokens : List Token} {name : Token} {initial condition : AstExpression} {update : AstForUpdate}
    (derives : DerivesFor tokens name initial condition update) (characters : HasCharacters source tokens) (n : Nat)
    (rest : List LinearNode) (first : (linearizeAst initial.toNode).length ≤ n)
    (second : (linearizeAst condition.toNode).length ≤ n) (third : (linearizeAst update.toNode).length ≤ n)
    (next : NextNot [.locationIndex] rest) :
    Takes (irExpressionNew source n) (linearizeAst initial.toNode) (initial.toIr source)
      (linearizeAst condition.toNode ++ (linearizeAst update.toNode ++ rest)) ∧
    Takes (irExpressionNew source n) (linearizeAst condition.toNode) (condition.toIr source)
      (linearizeAst update.toNode ++ rest) ∧
    Takes (irForUpdateNew source n) (linearizeAst update.toNode) (update.toIr source) rest := by
  cases derives with
  | mk hkeyword hopening hname hequals hinitial hfirst hcondition hsecond hupdate hclosing =>
    refine ⟨?_, ?_, ?_⟩
    · exact hinitial.takes (characters.mono (by intro token mem; simp [mem])) n _ first (nextNot_expression _ _)
    · exact hcondition.takes (characters.mono (by intro token mem; simp [mem])) n _ second (nextNot_update _ _)
    · exact hupdate.takes (characters.mono (by intro token mem; simp [mem])) n rest third next

mutual

/-- A statement is rebuilt from its nodes. -/
theorem DerivesStatement.takes {source : List Char} {tokens : List Token} {statement : AstStatement} :
    DerivesStatement tokens statement → HasCharacters source tokens → ∀ n m rest,
      (linearizeAst statement.toChild).length ≤ n → (linearizeAst statement.toChild).length ≤ m →
      NextNot statementNodes rest →
      Takes (irStatementNew source n (irBlockNew source n m)) (⟨.statement, none⟩ :: linearizeAst statement.toChild)
        (statement.toIr source) rest
  | @DerivesStatement.assignment _ _ assignment hassignment hclosing => by
    intro characters n m rest bound deep next allocated
    have taken := hassignment.takes (characters.mono (by intro token mem; simp [mem])) n rest bound (next.mono (by simp))
      allocated
    obtain ⟨nodes, same⟩ := linearizeAst_assignment assignment
    rw [AstStatement.toChild]
    rw [same] at taken ⊢
    simp only [List.cons_append] at taken
    simp [irStatementNew, taken, AstStatement.toIr]
  | @DerivesStatement.methodCall _ _ call hcall hclosing => by
    intro characters n m rest bound deep next allocated
    have taken := hcall.takes (characters.mono (by intro token mem; simp [mem])) n rest bound allocated
    obtain ⟨nodes, same⟩ := linearizeAst_callHead call
    rw [AstStatement.toChild]
    rw [same] at taken ⊢
    simp only [List.cons_append] at taken
    simp [irStatementNew, taken, AstStatement.toIr]
  | @DerivesStatement.ifStatement _ _ _ ifBlock hcondition hblock => by
    intro characters n m rest bound deep next allocated
    simp only [linearizeAst_if, List.length_cons, List.length_append] at bound deep
    have condition := hcondition.takes (characters.mono (by intro token mem; simp [mem])) n
      (linearizeAst ifBlock.toNode ++ rest) (by omega) (nextNot_block _ _) allocated
    have block := hblock.takes (characters.mono (by intro token mem; simp [mem])) n m rest (by omega) (by omega)
    obtain ⟨node, others, rfl, other⟩ := next
    simp only [List.mem_cons, List.not_mem_nil, or_false, not_or] at other
    simp [linearizeAst_if, irStatementNew, irIfStatementNew, condition, block _, other, AstStatement.toIr]
  | @DerivesStatement.ifElseStatement _ _ _ _ condition ifBlock elseBlock hcondition hblock hkeyword helse => by
    intro characters n m rest bound deep next allocated
    simp only [linearizeAst_ifElse, List.length_cons, List.length_append] at bound deep
    have tested := hcondition.takes (characters.mono (by intro token mem; simp [mem])) n
      (linearizeAst ifBlock.toNode ++ (linearizeAst elseBlock.toNode ++ rest)) (by omega)
      (nextNot_block _ _) allocated
    have first := hblock.takes (characters.mono (by intro token mem; simp [mem])) n m
      (linearizeAst elseBlock.toNode ++ rest) (by omega) (by omega)
    have second := helse.takes (characters.mono (by intro token mem; simp [mem])) n m rest (by omega) (by omega)
      (ifBlock.toIr source (condition.toIr source allocated).2).2
    obtain ⟨others, head⟩ := linearizeAst_blockHead elseBlock
    rw [linearizeAst_ifElse]
    rw [head] at tested first second ⊢
    simp only [List.cons_append] at tested first second
    simp [irStatementNew, irIfStatementNew, tested, first _, second, AstStatement.toIr]
  | @DerivesStatement.forStatement _ _ _ initial condition update block hfor hblock => by
    intro characters n m rest bound deep next allocated
    simp only [linearizeAst_for, List.length_cons, List.length_append] at bound deep
    obtain ⟨hinitial, hcondition, hupdate⟩ := hfor.takes (characters.mono (by intro token mem; simp [mem])) n
      (linearizeAst block.toNode ++ rest) (by omega) (by omega) (by omega) (nextNot_block block rest)
    have body := hblock.takes (characters.mono (by intro token mem; simp [mem])) n m rest (by omega) (by omega)
    simp [linearizeAst_for, irStatementNew, irForStatementNew, irAssignmentNewFromIdentifier, IrBuilder.allocate,
      hinitial _, hcondition _, hupdate _, body _, AstStatement.toIr]
  | @DerivesStatement.whileStatement _ _ _ block hcondition hblock => by
    intro characters n m rest bound deep next allocated
    simp only [linearizeAst_while, List.length_cons, List.length_append] at bound deep
    have condition := hcondition.takes (characters.mono (by intro token mem; simp [mem])) n
      (linearizeAst block.toNode ++ rest) (by omega) (nextNot_block _ _) allocated
    have body := hblock.takes (characters.mono (by intro token mem; simp [mem])) n m rest (by omega) (by omega)
    simp [linearizeAst_while, irStatementNew, irWhileStatementNew, condition, body _, AstStatement.toIr]
  | .returnStatement hkeyword hclosing => by
    intro characters n m rest bound deep next allocated
    obtain ⟨node, others, rfl, other⟩ := next
    simp only [List.mem_cons, List.not_mem_nil, or_false, not_or] at other
    simp [linearizeAst_return, irStatementNew, other, AstStatement.toIr]
  | @DerivesStatement.returnExpression _ _ _ expression hkeyword hexpression hclosing => by
    intro characters n m rest bound deep next allocated
    simp only [linearizeAst_returnExpression, List.length_cons] at bound
    have value := hexpression.takes (characters.mono (by intro token mem; simp [mem])) n rest (by omega)
      (next.mono (by simp)) allocated
    obtain ⟨nodes, same⟩ := linearizeAst_expression expression
    rw [linearizeAst_returnExpression]
    rw [same] at value ⊢
    simp only [List.cons_append] at value
    simp [irStatementNew, value, AstStatement.toIr]
  | .breakStatement hkeyword hclosing => by
    intro characters n m rest bound deep next allocated
    simp [AstStatement.toChild, linearizeAst_inner, linearizeChildren, AstNodeType.terminating, irStatementNew,
      AstStatement.toIr]
  | .continueStatement hkeyword hclosing => by
    intro characters n m rest bound deep next allocated
    simp [AstStatement.toChild, linearizeAst_inner, linearizeChildren, AstNodeType.terminating, irStatementNew,
      AstStatement.toIr]

/-- A block is rebuilt from its nodes. -/
theorem DerivesBlock.takes {source : List Char} {tokens : List Token} {block : AstBlock} :
    DerivesBlock tokens block → HasCharacters source tokens → ∀ n m rest,
      (linearizeAst block.toNode).length ≤ n → (linearizeAst block.toNode).length ≤ m →
      Takes (irBlockNew source n m) (linearizeAst block.toNode) (block.toIr source) rest
  | @DerivesBlock.mk _ _ _ _ fields statements hopening hfields hstatements hclosing => by
    rintro characters n (_ | m) rest bound deep allocated
    · simp [linearizeAst_block] at deep
    · simp only [linearizeAst_block, List.length_cons, List.length_append, List.length_nil] at bound deep
      have declared := irFieldsNew_takes hfields (characters.mono (by intro token mem; simp [mem])) n
        (linearizeChildren statements.toNodes ++ ⟨.blockEnd, none⟩ :: rest) (by omega) (nextNot_statements _ _) allocated
      have taken := hstatements.takes (characters.mono (by intro token mem; simp [mem])) n m n rest (by omega) (by omega)
        (by omega) (fieldsToIr source fields allocated).2
      simp [linearizeAst_block, irBlockNew, declared, taken, AstBlock.toIr]

/-- Statements are rebuilt up to the end of the block. -/
theorem DerivesStatements.takes {source : List Char} {tokens : List Token} {statements : AstStatements} :
    DerivesStatements tokens statements → HasCharacters source tokens → ∀ n m k rest,
      (linearizeChildren statements.toNodes).length ≤ n → (linearizeChildren statements.toNodes).length ≤ m →
      (linearizeChildren statements.toNodes).length < k →
      Takes (irMany .statement (irStatementNew source n (irBlockNew source n m)) k)
        (linearizeChildren statements.toNodes) (statements.toIr source) (⟨.blockEnd, none⟩ :: rest)
  | .nil => by
    rintro characters n m (_ | k) rest bound deep long allocated
    · omega
    · simp [AstStatements.toNodes, linearizeChildren, irMany, AstStatements.toIr]
  | @DerivesStatements.cons _ _ statement statements hstatement hstatements => by
    rintro characters n m (_ | k) rest bound deep long allocated
    · omega
    · simp only [linearizeChildren_cons, List.length_cons, List.length_append] at bound deep long
      have first := hstatement.takes (characters.mono (by intro token mem; simp [mem])) n m
        (linearizeChildren statements.toNodes ++ ⟨.blockEnd, none⟩ :: rest) (by omega) (by omega)
        (nextNot_statement _ _) allocated
      have others := hstatements.takes (characters.mono (by intro token mem; simp [mem])) n m k rest (by omega)
        (by omega) (by omega)
      simp only [List.cons_append] at first
      simp [linearizeChildren_cons, irMany, first, others _, AstStatements.toIr]

end

/-- Parameters are rebuilt from their nodes. -/
theorem DerivesParameters.takes {missing : Prop} {tokens : List Token} {parameters : List AstParameter}
    (derives : DerivesParameters missing tokens parameters) : ∀ parameter ∈ parameters, ∀ rest,
      Takes (irFieldNewFromMethodArgument source) (linearizeAst parameter.toNode) (parameter.toIr source) rest := by
  have one : ∀ {type name : Token}, type.type ∈ TYPES → ∀ rest, Takes (irFieldNewFromMethodArgument source)
      (linearizeAst (AstParameter.toNode ⟨type, name⟩)) (AstParameter.toIr source ⟨type, name⟩) rest := by
    intro type name htype rest allocated
    simp [linearizeAst_parameter, irFieldNewFromMethodArgument, IrBuilder.allocate, irDataTypeFromAst_cons htype,
      AstParameter.toIr]
  induction derives with
  | last htype hname hclosing =>
    intro parameter mem
    rw [List.mem_singleton.mp mem]
    exact one htype
  | comma htype hname hseparator others ih =>
    intro parameter mem
    rcases List.mem_cons.mp mem with rfl | mem
    · exact one htype
    · exact ih parameter mem
  | missing hmissing htype hname others ih =>
    intro parameter mem
    rcases List.mem_cons.mp mem with rfl | mem
    · exact one htype
    · exact ih parameter mem

private theorem irDataTypeFromAst_method {type : Token} {rest : List LinearNode} {allocated : Nat}
    (htype : type.type ∈ TokenType.keywordVoid :: TYPES) :
    irDataTypeFromAst ⟨(if type.type = .keywordVoid then ⟨.void, none⟩ else ⟨.dataType, some type⟩) :: rest, allocated⟩ =
      some (irDataType type.type, ⟨rest, allocated⟩) := by
  by_cases void : type.type = .keywordVoid
  · simp [void, irDataTypeFromAst, irDataType]
  · rw [if_neg void]
    exact irDataTypeFromAst_cons ((List.mem_cons.mp htype).resolve_left void)

/-- A method is rebuilt from its nodes. -/
theorem DerivesMethod.takes {missing : Prop} {tokens : List Token} {method : AstMethod}
    (derives : DerivesMethod missing tokens method) (characters : HasCharacters source tokens) (n : Nat)
    (rest : List LinearNode) (bound : (linearizeAst method.toNode).length ≤ n) :
    Takes (irMethodNew source n) (linearizeAst method.toNode) (method.toIr source) rest := by
  intro allocated
  have parts : method.type.type ∈ TokenType.keywordVoid :: TYPES ∧
      (∀ parameter ∈ method.parameters, ∀ rest, Takes (irFieldNewFromMethodArgument source)
        (linearizeAst parameter.toNode) (parameter.toIr source) rest) ∧
      ∃ part, part ⊆ tokens ∧ DerivesBlock part method.block := by
    cases derives with
    | empty htype hname hopening hclosing hblock =>
      refine ⟨htype, fun _ mem => ?_, _, ?_, hblock⟩
      · cases mem
      · intro token inside
        simp [inside]
    | parameters htype hname hopening hparameters hblock =>
      refine ⟨htype, hparameters.takes, _, ?_, hblock⟩
      intro token inside
      simp [inside]
  obtain ⟨htype, hparameters, part, subset, hblock⟩ := parts
  rw [linearizeAst_method] at bound ⊢
  simp only [List.length_cons, List.length_append] at bound
  have long := length_le_linearizeChildren (method.parameters.map AstParameter.toNode)
  rw [List.length_map] at long
  obtain ⟨nodes, same⟩ := linearizeAst_blockHead method.block
  have next : NextNot [.methodArgument] (linearizeAst method.block.toNode ++ rest) := same ▸ nextNot_cons (by simp)
  have declared := irMany_takes (fun _ => True) n (fun parameter _ => ⟨_, _, linearizeAst_parameter parameter, rfl⟩)
    (fun parameter mem rest _ => hparameters parameter mem rest) (fun _ _ _ => trivial) trivial next (by omega) allocated
  have body := hblock.takes (characters.mono subset) n n rest (by omega) (by omega)
  simp [irMethodNew, irDataTypeFromAst_method htype, declared, body _, AstMethod.toIr]

/-- The construction inverts the linear form: it reads every node but the last and gives the tree's own
representation. -/
theorem DerivesProgram.takes {missing : Prop} {tokens : List Token} {program : AstProgram}
    (derives : DerivesProgram missing tokens program) (characters : HasCharacters source tokens) (n : Nat)
    (bound : (linearizeAst program.toNode).length ≤ n) :
    irProgramNew source n (linearizeAst program.toNode) = some (program.toIr source, [⟨.programEnd, none⟩]) := by
  cases derives with
  | @mk imports fields methods names declared defined himports hfields hmethods =>
    rw [linearizeAst_program] at bound ⊢
    simp only [List.length_cons, List.length_append, List.length_nil] at bound
    have named := length_le_linearizeChildren (names.map importNode)
    have long := length_le_linearizeChildren (defined.map AstMethod.toNode)
    rw [List.length_map] at named long
    have oneImport : ∀ name ∈ names, ∀ rest, True → Takes (irMethodNewFromImport source) (linearizeAst (importNode name))
        (fun allocated => (⟨true, .int, tokenString source name, [], .mk [] .nil⟩, allocated)) rest := by
      intro name mem rest _ allocated
      simp [linearizeAst_import, irMethodNewFromImport]
    have oneMethod : ∀ method ∈ defined, ∀ rest, True → Takes (irMethodNew source n) (linearizeAst method.toNode)
        (method.toIr source) rest := by
      intro method mem rest _
      obtain ⟨part, subset, found⟩ := hmethods.mem_derives method mem
      have short := length_linearizeAst_le (List.mem_map_of_mem (f := AstMethod.toNode) mem)
      exact found.takes (characters.mono fun token inside => by simp [subset inside]) n rest (by omega)
    have imported := irMany_takes (fun _ => True) n (fun name _ => ⟨_, _, linearizeAst_import name, rfl⟩) oneImport
      (fun _ _ _ => trivial) trivial (nextNot_fields declared defined) (by omega) 0
    have fieldsTaken := irFieldsNew_takes hfields (characters.mono fun token inside => by simp [inside]) n _ (by omega)
      (nextNot_methods defined) 0
    have last : NextNot [.method] [(⟨.programEnd, none⟩ : LinearNode)] := nextNot_cons (by simp)
    have methodsTaken := irMany_takes (fun _ => True) n (fun method _ => ⟨_, _, linearizeAst_method method, rfl⟩) oneMethod
      (fun _ _ _ => trivial) trivial last (by omega) (fieldsToIr source declared 0).2
    rw [listToIr_map] at imported
    simp [irProgramNew, imported, fieldsTaken, methodsTaken, AstProgram.toIr]

end

end Roast
