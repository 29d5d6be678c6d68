import Roast.Parser.Linearization

/-! The linear form determines the tree: a tree can be cancelled from the beginning of a list of nodes whenever the
node behind it cannot continue the tree. -/
namespace Roast

private theorem AstLiteral.cancel {literal other : AstLiteral} {rest rest' : List LinearNode}
    (same : linearizeAst literal.toNode ++ rest = linearizeAst other.toNode ++ rest') : literal = other ∧ rest = rest' := by
  obtain ⟨negation, value⟩ := literal
  obtain ⟨negation', value'⟩ := other
  have plain : ∀ type, literalNodeType type ≠ .literalNegation := by
    intro type
    unfold literalNodeType
    split <;> simp
  rw [linearizeAst_literal, linearizeAst_literal] at same
  cases negation <;> cases negation' <;> simp_all [eq_comm]

mutual

/-- Two expressions with one linear form are the same, and what follows is the same. -/
private theorem AstExpression.cancel : ∀ (expression other : AstExpression) (rest rest' : List LinearNode),
    NextNot [.locationIndex] rest → NextNot [.locationIndex] rest' →
    linearizeAst expression.toNode ++ rest = linearizeAst other.toNode ++ rest' → expression = other ∧ rest = rest'
  | .binary left operator right, other, rest, rest', next, next', same => by
    rw [linearizeAst_binary] at same
    cases other with
    | binary left' operator' right' =>
      simp only [linearizeAst_binary, List.cons_append, List.append_assoc, List.cons.injEq, true_and] at same
      obtain ⟨rfl, tails⟩ := left.cancel left' _ _ (nextNot_cons (by simp)) (nextNot_cons (by simp)) same
      obtain ⟨operators, tails⟩ := List.cons.inj tails
      obtain ⟨rfl, rests⟩ := right.cancel right' _ _ next next' tails
      simp_all
    | _ => simp [linearizeAst_not, linearizeAst_negate, linearizeAst_len, linearizeAst_methodCall, linearizeAst_call,
        linearizeAst_literalExpression, linearizeAst_literal, linearizeAst_scalar, linearizeAst_element] at same
  | .not operand, other, rest, rest', next, next', same => by
    rw [linearizeAst_not] at same
    cases other with
    | not operand' =>
      simp only [linearizeAst_not, List.cons_append, List.cons.injEq, true_and] at same
      obtain ⟨rfl, rests⟩ := operand.cancel operand' _ _ next next' same
      exact ⟨rfl, rests⟩
    | _ => simp [linearizeAst_binary, linearizeAst_negate, linearizeAst_len, linearizeAst_methodCall, linearizeAst_call,
        linearizeAst_literalExpression, linearizeAst_literal, linearizeAst_scalar, linearizeAst_element] at same
  | .negate operand, other, rest, rest', next, next', same => by
    rw [linearizeAst_negate] at same
    cases other with
    | negate operand' =>
      simp only [linearizeAst_negate, List.cons_append, List.cons.injEq, true_and] at same
      obtain ⟨rfl, rests⟩ := operand.cancel operand' _ _ next next' same
      exact ⟨rfl, rests⟩
    | _ => simp [linearizeAst_binary, linearizeAst_not, linearizeAst_len, linearizeAst_methodCall, linearizeAst_call,
        linearizeAst_literalExpression, linearizeAst_literal, linearizeAst_scalar, linearizeAst_element] at same
  | .len name, other, rest, rest', next, next', same => by
    rw [linearizeAst_len] at same
    cases other with
    | len name' =>
      simp only [linearizeAst_len, List.cons_append, List.cons.injEq, true_and] at same
      simp_all
    | _ => simp [linearizeAst_binary, linearizeAst_not, linearizeAst_negate, linearizeAst_methodCall, linearizeAst_call,
        linearizeAst_literalExpression, linearizeAst_literal, linearizeAst_scalar, linearizeAst_element] at same
  | .methodCall name arguments, other, rest, rest', next, next', same => by
    rw [linearizeAst_methodCall, linearizeAst_call] at same
    cases other with
    | methodCall name' arguments' =>
      simp only [linearizeAst_methodCall, linearizeAst_call, List.cons_append, List.append_assoc, List.cons.injEq,
        true_and] at same
      obtain ⟨names, same⟩ := same
      obtain ⟨rfl, same⟩ := arguments.cancel arguments' _ _ same
      simp_all
    | _ => simp [linearizeAst_binary, linearizeAst_not, linearizeAst_negate, linearizeAst_len,
        linearizeAst_literalExpression, linearizeAst_literal, linearizeAst_scalar, linearizeAst_element] at same
  | .literal literal, other, rest, rest', next, next', same => by
    rw [linearizeAst_literalExpression] at same
    cases other with
    | literal literal' =>
      simp only [linearizeAst_literalExpression, List.cons_append, List.cons.injEq, true_and] at same
      obtain ⟨rfl, rests⟩ := AstLiteral.cancel same
      exact ⟨rfl, rests⟩
    | _ => simp [linearizeAst_binary, linearizeAst_not, linearizeAst_negate, linearizeAst_len, linearizeAst_methodCall,
        linearizeAst_call, linearizeAst_literal, linearizeAst_scalar, linearizeAst_element] at same
  | .scalar name, other, rest, rest', next, next', same => by
    rw [linearizeAst_scalar] at same
    cases other with
    | scalar name' =>
      simp only [linearizeAst_scalar, List.cons_append, List.cons.injEq, true_and] at same
      simp_all
    | element name' index' =>
      obtain ⟨node, nodes, rfl, other⟩ := next
      simp [linearizeAst_element] at same other
      simp [same] at other
    | _ => simp [linearizeAst_binary, linearizeAst_not, linearizeAst_negate, linearizeAst_len, linearizeAst_methodCall,
        linearizeAst_call, linearizeAst_literalExpression, linearizeAst_literal] at same
  | .element name index, other, rest, rest', next, next', same => by
    rw [linearizeAst_element] at same
    cases other with
    | element name' index' =>
      simp only [linearizeAst_element, List.cons_append, List.cons.injEq, true_and] at same
      obtain ⟨names, same⟩ := same
      obtain ⟨rfl, same⟩ := index.cancel index' _ _ next next' same
      simp_all
    | scalar name' =>
      obtain ⟨node, nodes, rfl, other⟩ := next'
      simp [linearizeAst_scalar] at same other
      simp [← same] at other
    | _ => simp [linearizeAst_binary, linearizeAst_not, linearizeAst_negate, linearizeAst_len, linearizeAst_methodCall,
        linearizeAst_call, linearizeAst_literalExpression, linearizeAst_literal] at same

/-- Two argument lists with one linear form are the same. -/
private theorem AstArguments.cancel : ∀ (arguments others : AstArguments) (rest rest' : List LinearNode),
    linearizeChildren arguments.toNodes ++ ⟨.methodCallEnd, none⟩ :: rest =
      linearizeChildren others.toNodes ++ ⟨.methodCallEnd, none⟩ :: rest' → arguments = others ∧ rest = rest'
  | .nil, others, rest, rest', same => by
    cases others with
    | nil =>
      simp only [List.append_cancel_left_eq, List.cons.injEq, true_and] at same
      exact ⟨rfl, same⟩
    | string string' others => simp [AstArguments.toNodes, linearizeChildren, linearizeAst_inner] at same
    | expression expression' others => simp [AstArguments.toNodes, linearizeChildren, linearizeAst_inner] at same
  | .string string arguments, others, rest, rest', same => by
    rw [linearizeChildren_string] at same
    cases others with
    | nil => simp [AstArguments.toNodes, linearizeChildren] at same
    | string string' others =>
      simp only [linearizeChildren_string, List.cons_append, List.cons.injEq, true_and] at same
      obtain ⟨strings, same⟩ := same
      obtain ⟨rfl, same⟩ := arguments.cancel others _ _ same
      simp_all
    | expression expression' others =>
      obtain ⟨nodes, head⟩ := linearizeAst_expression expression'
      simp [linearizeChildren_expression, head] at same
  | .expression expression arguments, others, rest, rest', same => by
    rw [linearizeChildren_expression] at same
    cases others with
    | nil => simp [AstArguments.toNodes, linearizeChildren] at same
    | string string' others =>
      obtain ⟨nodes, head⟩ := linearizeAst_expression expression
      simp [linearizeChildren_string, head] at same
    | expression expression' others =>
      simp only [linearizeChildren_expression, List.cons_append, List.append_assoc, List.cons.injEq, true_and] at same
      obtain ⟨rfl, tails⟩ := expression.cancel expression' _ _ (nextNot_arguments _ _) (nextNot_arguments _ _) same
      obtain ⟨rfl, rests⟩ := arguments.cancel others _ _ tails
      exact ⟨rfl, rests⟩

end

def AstLocation.toExpression : AstLocation → AstExpression
  | .scalar name => .scalar name
  | .element name index => .element name index

private theorem linearizeAst_toExpression (location : AstLocation) :
    linearizeAst location.toExpression.toNode = ⟨.expression, none⟩ :: linearizeAst location.toNode := by
  cases location <;>
    simp [AstLocation.toExpression, AstExpression.toNode, AstLocation.toNode, linearizeAst_inner, linearizeChildren,
      AstNodeType.terminating]

private theorem AstLocation.cancel {location other : AstLocation} {rest rest' : List LinearNode}
    (next : NextNot [.locationIndex] rest) (next' : NextNot [.locationIndex] rest')
    (same : linearizeAst location.toNode ++ rest = linearizeAst other.toNode ++ rest') :
    location = other ∧ rest = rest' := by
  have whole : linearizeAst location.toExpression.toNode ++ rest = linearizeAst other.toExpression.toNode ++ rest' := by
    rw [linearizeAst_toExpression, linearizeAst_toExpression, List.cons_append, List.cons_append, same]
  obtain ⟨equal, rests⟩ := location.toExpression.cancel _ rest rest' next next' whole
  refine ⟨?_, rests⟩
  cases location <;> cases other <;> simp_all [AstLocation.toExpression]

private theorem AstCall.cancel {call other : AstCall} {rest rest' : List LinearNode}
    (same : linearizeAst call.toNode ++ rest = linearizeAst other.toNode ++ rest') : call = other ∧ rest = rest' := by
  obtain ⟨name, arguments⟩ := call
  obtain ⟨name', arguments'⟩ := other
  simp only [linearizeAst_call, List.cons_append, List.append_assoc, List.cons.injEq, true_and] at same
  obtain ⟨names, same⟩ := same
  obtain ⟨rfl, rests⟩ := arguments.cancel arguments' _ _ same
  simp_all

private theorem AstAssignment.cancel {assignment other : AstAssignment} {rest rest' : List LinearNode}
    (next : NextNot [.locationIndex] rest) (next' : NextNot [.locationIndex] rest')
    (same : linearizeAst assignment.toNode ++ rest = linearizeAst other.toNode ++ rest') :
    assignment = other ∧ rest = rest' := by
  cases assignment with
  | assign location operator expression =>
    cases other with
    | assign location' operator' expression' =>
      simp only [linearizeAst_assign, List.cons_append, List.append_assoc, List.cons.injEq, true_and] at same
      obtain ⟨rfl, tails⟩ := AstLocation.cancel (nextNot_cons (by simp)) (nextNot_cons (by simp)) same
      obtain ⟨operators, tails⟩ := List.cons.inj tails
      obtain ⟨rfl, rests⟩ := expression.cancel expression' _ _ next next' tails
      simp_all
    | increment location' operator' =>
      simp only [linearizeAst_assign, linearizeAst_increment, List.cons_append, List.append_assoc, List.cons.injEq,
        true_and] at same
      obtain ⟨rfl, tails⟩ := AstLocation.cancel (nextNot_cons (by simp)) (nextNot_cons (by simp)) same
      simp at tails
  | increment location operator =>
    cases other with
    | assign location' operator' expression' =>
      simp only [linearizeAst_assign, linearizeAst_increment, List.cons_append, List.append_assoc, List.cons.injEq,
        true_and] at same
      obtain ⟨rfl, tails⟩ := AstLocation.cancel (nextNot_cons (by simp)) (nextNot_cons (by simp)) same
      simp at tails
    | increment location' operator' =>
      simp only [linearizeAst_increment, List.cons_append, List.append_assoc, List.cons.injEq, true_and] at same
      obtain ⟨rfl, tails⟩ := AstLocation.cancel (nextNot_cons (by simp)) (nextNot_cons (by simp)) same
      simp_all

private theorem AstForUpdate.cancel {update other : AstForUpdate} {rest rest' : List LinearNode}
    (next : NextNot [.locationIndex] rest) (next' : NextNot [.locationIndex] rest')
    (same : linearizeAst update.toNode ++ rest = linearizeAst other.toNode ++ rest') :
    update = other ∧ rest = rest' := by
  cases update with
  | methodCall call =>
    cases other with
    | methodCall call' =>
      simp only [linearizeAst_updateCall, List.cons_append, List.cons.injEq, true_and] at same
      obtain ⟨rfl, rests⟩ := AstCall.cancel same
      exact ⟨rfl, rests⟩
    | assignment assignment' =>
      obtain ⟨nodes, head⟩ := linearizeAst_assignment assignment'
      simp [linearizeAst_updateCall, linearizeAst_updateAssignment, linearizeAst_call, head] at same
  | assignment assignment =>
    cases other with
    | methodCall call' =>
      obtain ⟨nodes, head⟩ := linearizeAst_assignment assignment
      simp [linearizeAst_updateCall, linearizeAst_updateAssignment, linearizeAst_call, head] at same
    | assignment assignment' =>
      simp only [linearizeAst_updateAssignment, List.cons_append, List.cons.injEq, true_and] at same
      obtain ⟨rfl, rests⟩ := AstAssignment.cancel next next' same
      exact ⟨rfl, rests⟩

/-- Nodes one after another, each of one type and cancelled in front of the next, are cancelled in front of a node of
another type. -/
private theorem linearizeChildren_cancel {α : Type} {type : AstNodeType} {toNode : α → AstNode}
    {ends : List LinearNode → Prop}
    (head : ∀ item, ∃ token nodes, linearizeAst (toNode item) = ⟨type, token⟩ :: nodes)
    (cancel : ∀ item other rest rest', ends rest → ends rest' →
      linearizeAst (toNode item) ++ rest = linearizeAst (toNode other) ++ rest' →
      toNode item = toNode other ∧ rest = rest')
    (between : ∀ item rest, ends (linearizeAst (toNode item) ++ rest)) (items others : List α)
    {rest rest' : List LinearNode} (stops : ends rest) (stops' : ends rest') (next : NextNot [type] rest)
    (next' : NextNot [type] rest')
    (same : linearizeChildren (items.map toNode) ++ rest = linearizeChildren (others.map toNode) ++ rest') :
    items.map toNode = others.map toNode ∧ rest = rest' := by
  have inside : ∀ (items : List α) {rest}, ends rest → ends (linearizeChildren (items.map toNode) ++ rest) := by
    intro items rest stops
    cases items with
    | nil => exact stops
    | cons item items =>
      rw [List.map_cons, linearizeChildren, List.append_assoc]
      exact between item _
  induction items generalizing others with
  | nil =>
    cases others with
    | nil => exact ⟨rfl, same⟩
    | cons other others =>
      obtain ⟨token, nodes, form⟩ := head other
      obtain ⟨node, tail, rfl, stop⟩ := next
      simp only [List.map_nil, List.map_cons, linearizeChildren, List.nil_append, form, List.cons_append,
        List.cons.injEq] at same
      simp [same.1] at stop
  | cons item items ih =>
    cases others with
    | nil =>
      obtain ⟨token, nodes, form⟩ := head item
      obtain ⟨node, tail, rfl, stop⟩ := next'
      simp only [List.map_nil, List.map_cons, linearizeChildren, List.nil_append, form, List.cons_append,
        List.cons.injEq] at same
      simp [← same.1] at stop
    | cons other others =>
      simp only [List.map_cons, linearizeChildren, List.append_assoc] at same
      obtain ⟨first, tails⟩ := cancel item other _ _ (inside items stops) (inside others stops') same
      obtain ⟨others, rests⟩ := ih others tails
      exact ⟨by rw [List.map_cons, List.map_cons, first, others], rests⟩

private theorem AstInitializer.cancel {initializer other : AstInitializer} {rest rest' : List LinearNode}
    (next : NextNot [.literal] rest) (next' : NextNot [.literal] rest')
    (same : linearizeAst initializer.toNode ++ rest = linearizeAst other.toNode ++ rest') :
    initializer.toNode = other.toNode ∧ rest = rest' := by
  cases initializer with
  | scalar literal =>
    cases other with
    | scalar literal' =>
      simp only [linearizeAst_scalarInitializer, List.cons_append, List.cons.injEq, true_and] at same
      obtain ⟨rfl, rests⟩ := AstLiteral.cancel same
      exact ⟨rfl, rests⟩
    | array literals' =>
      simp [linearizeAst_scalarInitializer, linearizeAst_arrayInitializer, linearizeAst_literal] at same
  | array literals =>
    cases other with
    | scalar literal' =>
      simp [linearizeAst_scalarInitializer, linearizeAst_arrayInitializer, linearizeAst_literal] at same
    | array literals' =>
      simp only [linearizeAst_arrayInitializer, List.cons_append, List.cons.injEq, true_and] at same
      have one : ∀ (item other : AstLiteral) (rest rest' : List LinearNode), True → True →
          linearizeAst item.toNode ++ rest = linearizeAst other.toNode ++ rest' →
          item.toNode = other.toNode ∧ rest = rest' := by
        intro item other rest rest' _ _ same
        obtain ⟨rfl, rests⟩ := AstLiteral.cancel same
        exact ⟨rfl, rests⟩
      obtain ⟨nodes, rests⟩ := linearizeChildren_cancel (fun item => ⟨_, _, linearizeAst_literal item⟩) one
        (fun _ _ => trivial) literals literals' trivial trivial next next' same
      exact ⟨by simp [AstInitializer.toNode, nodes], rests⟩

private theorem AstLength.cancel {length other : AstLength} {rest rest' : List LinearNode}
    (next : NextNot [.emptyArrayLength, .intLiteral] rest) (next' : NextNot [.emptyArrayLength, .intLiteral] rest')
    (same : linearizeChildren length.toNodes ++ rest = linearizeChildren other.toNodes ++ rest') :
    length = other ∧ rest = rest' := by
  obtain ⟨node, tail, rfl, stop⟩ := next
  obtain ⟨node', tail', rfl, stop'⟩ := next'
  simp only [List.mem_cons, List.not_mem_nil, or_false, not_or] at stop stop'
  cases length <;> cases other <;>
    simp only [AstLength.toNodes, linearizeChildren, linearizeAst_inner, linearizeAst_leaf, AstNodeType.terminating,
      List.nil_append, List.append_nil, List.cons_append, List.cons.injEq] at same <;>
    grind

/-- Two declarators with one linear form are the same. -/
private theorem AstDeclarator.cancel {declarator other : AstDeclarator} {rest rest' : List LinearNode}
    (next : NextNot declaratorNodes rest) (next' : NextNot declaratorNodes rest')
    (same : linearizeAst declarator.toNode ++ rest = linearizeAst other.toNode ++ rest') :
    declarator.toNode = other.toNode ∧ rest = rest' := by
  obtain ⟨name, length, initializer⟩ := declarator
  obtain ⟨name', length', initializer'⟩ := other
  have initialized : ∀ (initializer : AstInitializer) (rest : List LinearNode),
      NextNot [.emptyArrayLength, .intLiteral] (linearizeAst initializer.toNode ++ rest) := by
    intro initializer rest
    obtain ⟨nodes, head⟩ := linearizeAst_initializer initializer
    rw [head]
    exact nextNot_cons (by simp)
  cases initializer with
  | none =>
    cases initializer' with
    | none =>
      simp only [linearizeAst_plain, List.cons_append, List.cons.injEq, true_and] at same
      obtain ⟨names, same⟩ := same
      obtain ⟨rfl, rests⟩ := AstLength.cancel (next.mono (by simp)) (next'.mono (by simp)) same
      simp_all [AstDeclarator.toNode]
    | some initializer' =>
      simp only [linearizeAst_plain, linearizeAst_initialized, List.cons_append, List.append_assoc, List.cons.injEq,
        true_and] at same
      obtain ⟨rfl, tails⟩ := AstLength.cancel (next.mono (by simp)) (initialized _ _) same.2
      obtain ⟨node, nodes, rfl, stop⟩ := next
      obtain ⟨others, head⟩ := linearizeAst_initializer initializer'
      rw [head, List.cons_append, List.cons.injEq] at tails
      simp [tails.1] at stop
  | some initializer =>
    cases initializer' with
    | none =>
      simp only [linearizeAst_plain, linearizeAst_initialized, List.cons_append, List.append_assoc, List.cons.injEq,
        true_and] at same
      obtain ⟨rfl, tails⟩ := AstLength.cancel (initialized _ _) (next'.mono (by simp)) same.2
      obtain ⟨node, nodes, rfl, stop⟩ := next'
      obtain ⟨others, head⟩ := linearizeAst_initializer initializer
      rw [head, List.cons_append, List.cons.injEq] at tails
      simp [← tails.1] at stop
    | some initializer' =>
      simp only [linearizeAst_initialized, List.cons_append, List.append_assoc, List.cons.injEq, true_and] at same
      obtain ⟨rfl, tails⟩ := AstLength.cancel (initialized _ _) (initialized _ _) same.2
      obtain ⟨nodes, rests⟩ := AstInitializer.cancel (next.mono (by simp)) (next'.mono (by simp)) tails
      simp_all [AstDeclarator.toNode]

/-- Two field declarations with one linear form are the same. -/
private theorem AstField.cancel {field other : AstField} {rest rest' : List LinearNode}
    (next : NextNot fieldNodes rest) (next' : NextNot fieldNodes rest')
    (same : linearizeAst field.toNode ++ rest = linearizeAst other.toNode ++ rest') :
    field.toNode = other.toNode ∧ rest = rest' := by
  obtain ⟨constant, type, declarators⟩ := field
  obtain ⟨constant', type', declarators'⟩ := other
  have listed : linearizeChildren (declarators.map AstDeclarator.toNode) ++ rest =
      linearizeChildren (declarators'.map AstDeclarator.toNode) ++ rest' ∧ constant = constant' ∧ type = type' := by
    cases constant <;> cases constant' <;> simp_all [linearizeAst_field]
  obtain ⟨nodes, rests⟩ := linearizeChildren_cancel (fun _ => ⟨_, _, rfl⟩)
    (fun _ _ _ _ next next' same => AstDeclarator.cancel next next' same) (fun _ _ => nextNot_cons (by simp)) declarators
    declarators' (next.mono (by simp)) (next'.mono (by simp)) (next.mono (by simp)) (next'.mono (by simp)) listed.1
  simp [AstField.toNode, nodes, rests, listed.2]

private theorem linearizeChildren_fields_cancel {fields others : List AstField} {rest rest' : List LinearNode}
    (next : NextNot (.field :: fieldNodes) rest) (next' : NextNot (.field :: fieldNodes) rest')
    (same : linearizeChildren (fields.map AstField.toNode) ++ rest =
      linearizeChildren (others.map AstField.toNode) ++ rest') :
    fields.map AstField.toNode = others.map AstField.toNode ∧ rest = rest' := by
  refine linearizeChildren_cancel (fun field => ⟨_, _, linearizeAst_field field⟩)
    (fun _ _ _ _ next next' same => AstField.cancel next next' same) ?_ fields others (next.mono (by simp))
    (next'.mono (by simp)) (next.mono (by simp)) (next'.mono (by simp)) same
  intro field rest
  rw [linearizeAst_field]
  exact nextNot_cons (by simp)

def AstStatement.childType : AstStatement → AstNodeType
  | .assignment _ => .assignment
  | .methodCall _ => .methodCall
  | .ifStatement _ _ | .ifElseStatement _ _ _ => .ifStatement
  | .forStatement _ _ _ _ _ => .forStatement
  | .whileStatement _ _ => .whileStatement
  | .returnStatement _ => .returnStatement
  | .breakStatement => .breakStatement
  | .continueStatement => .continueStatement

private theorem linearizeAst_toChild (statement : AstStatement) :
    ∃ nodes, linearizeAst statement.toChild = ⟨statement.childType, none⟩ :: nodes := by
  cases statement with
  | assignment child => exact linearizeAst_assignment child
  | _ => exact ⟨_, rfl⟩

private theorem childType_eq {statement other : AstStatement} {rest rest' : List LinearNode}
    (same : linearizeAst statement.toChild ++ rest = linearizeAst other.toChild ++ rest') :
    statement.childType = other.childType := by
  obtain ⟨nodes, form⟩ := linearizeAst_toChild statement
  obtain ⟨nodes', form'⟩ := linearizeAst_toChild other
  rw [form, form'] at same
  simp only [List.cons_append, List.cons.injEq, LinearNode.mk.injEq, and_true] at same
  exact same.1

private theorem returnStatement_cancel {returned other : Option AstExpression} {rest rest' : List LinearNode}
    (next : NextNot statementNodes rest) (next' : NextNot statementNodes rest')
    (same : linearizeAst (AstStatement.returnStatement returned).toChild ++ rest =
      linearizeAst (AstStatement.returnStatement other).toChild ++ rest') :
    (AstStatement.returnStatement returned).toChild = (AstStatement.returnStatement other).toChild ∧ rest = rest' := by
  cases returned with
  | none =>
    cases other with
    | none => exact ⟨rfl, List.append_cancel_left same⟩
    | some expression =>
      obtain ⟨nodes, head⟩ := linearizeAst_expression expression
      obtain ⟨node, others, rfl, stop⟩ := next
      simp only [linearizeAst_return, linearizeAst_returnExpression, head, List.cons_append, List.nil_append,
        List.cons.injEq, true_and] at same
      simp [same.1] at stop
  | some expression =>
    cases other with
    | none =>
      obtain ⟨nodes, head⟩ := linearizeAst_expression expression
      obtain ⟨node, others, rfl, stop⟩ := next'
      simp only [linearizeAst_return, linearizeAst_returnExpression, head, List.cons_append, List.nil_append,
        List.cons.injEq, true_and] at same
      simp [← same.1] at stop
    | some expression' =>
      simp only [linearizeAst_returnExpression, List.cons_append, List.cons.injEq, true_and] at same
      obtain ⟨rfl, rests⟩ := expression.cancel expression' _ _ (next.mono (by simp)) (next'.mono (by simp)) same
      exact ⟨rfl, rests⟩

mutual

/-- Two statements with one linear form are the same. -/
private theorem AstStatement.cancel : ∀ (statement other : AstStatement) (rest rest' : List LinearNode),
    NextNot statementNodes rest → NextNot statementNodes rest' →
    linearizeAst statement.toChild ++ rest = linearizeAst other.toChild ++ rest' →
    statement.toChild = other.toChild ∧ rest = rest'
  | .assignment child, other, rest, rest', next, next', same => by
    have kinds := childType_eq same
    cases other with
    | assignment child' =>
      obtain ⟨rfl, rests⟩ := AstAssignment.cancel (next.mono (by simp)) (next'.mono (by simp)) same
      exact ⟨rfl, rests⟩
    | _ => cases kinds
  | .methodCall call, other, rest, rest', next, next', same => by
    have kinds := childType_eq same
    cases other with
    | methodCall call' =>
      obtain ⟨rfl, rests⟩ := AstCall.cancel same
      exact ⟨rfl, rests⟩
    | _ => cases kinds
  | .ifStatement condition ifBlock, other, rest, rest', next, next', same => by
    have kinds := childType_eq same
    cases other with
    | ifStatement condition' ifBlock' =>
      simp only [linearizeAst_if, List.cons_append, List.append_assoc, List.cons.injEq, true_and] at same
      obtain ⟨rfl, tails⟩ := condition.cancel condition' _ _ (nextNot_block _ _) (nextNot_block _ _) same
      obtain ⟨block, rests⟩ := ifBlock.cancel ifBlock' _ _ tails
      exact ⟨by rw [AstStatement.toChild, AstStatement.toChild, block], rests⟩
    | ifElseStatement condition' ifBlock' elseBlock' =>
      simp only [linearizeAst_if, linearizeAst_ifElse, List.cons_append, List.append_assoc, List.cons.injEq,
        true_and] at same
      obtain ⟨rfl, tails⟩ := condition.cancel condition' _ _ (nextNot_block _ _) (nextNot_block _ _) same
      obtain ⟨block, tails⟩ := ifBlock.cancel ifBlock' _ _ tails
      obtain ⟨nodes, head⟩ := linearizeAst_blockHead elseBlock'
      obtain ⟨node, others, rfl, stop⟩ := next
      rw [head, List.cons_append, List.cons.injEq] at tails
      simp [tails.1] at stop
    | _ => cases kinds
  | .ifElseStatement condition ifBlock elseBlock, other, rest, rest', next, next', same => by
    have kinds := childType_eq same
    cases other with
    | ifStatement condition' ifBlock' =>
      simp only [linearizeAst_if, linearizeAst_ifElse, List.cons_append, List.append_assoc, List.cons.injEq,
        true_and] at same
      obtain ⟨rfl, tails⟩ := condition.cancel condition' _ _ (nextNot_block _ _) (nextNot_block _ _) same
      obtain ⟨block, tails⟩ := ifBlock.cancel ifBlock' _ _ tails
      obtain ⟨nodes, head⟩ := linearizeAst_blockHead elseBlock
      obtain ⟨node, others, rfl, stop⟩ := next'
      rw [head, List.cons_append, List.cons.injEq] at tails
      simp [← tails.1] at stop
    | ifElseStatement condition' ifBlock' elseBlock' =>
      simp only [linearizeAst_ifElse, List.cons_append, List.append_assoc, List.cons.injEq, true_and] at same
      obtain ⟨rfl, tails⟩ := condition.cancel condition' _ _ (nextNot_block _ _) (nextNot_block _ _) same
      obtain ⟨first, tails⟩ := ifBlock.cancel ifBlock' _ _ tails
      obtain ⟨second, rests⟩ := elseBlock.cancel elseBlock' _ _ tails
      exact ⟨by rw [AstStatement.toChild, AstStatement.toChild, first, second], rests⟩
    | _ => cases kinds
  | .forStatement name initial condition update block, other, rest, rest', next, next', same => by
    have kinds := childType_eq same
    cases other with
    | forStatement name' initial' condition' update' block' =>
      simp only [linearizeAst_for, List.cons_append, List.append_assoc, List.cons.injEq, LinearNode.mk.injEq,
        Option.some.injEq, true_and] at same
      obtain ⟨rfl, tails⟩ := initial.cancel initial' _ _ (nextNot_expression _ _) (nextNot_expression _ _) same.2
      obtain ⟨rfl, after⟩ := condition.cancel condition' _ _ (nextNot_update _ _) (nextNot_update _ _) tails
      obtain ⟨rfl, bodies⟩ := AstForUpdate.cancel (nextNot_block _ _) (nextNot_block _ _) after
      obtain ⟨body, rests⟩ := block.cancel block' _ _ bodies
      exact ⟨by rw [AstStatement.toChild, AstStatement.toChild, same.1, body], rests⟩
    | _ => cases kinds
  | .whileStatement condition block, other, rest, rest', next, next', same => by
    have kinds := childType_eq same
    cases other with
    | whileStatement condition' block' =>
      simp only [linearizeAst_while, List.cons_append, List.append_assoc, List.cons.injEq, true_and] at same
      obtain ⟨rfl, tails⟩ := condition.cancel condition' _ _ (nextNot_block _ _) (nextNot_block _ _) same
      obtain ⟨body, rests⟩ := block.cancel block' _ _ tails
      exact ⟨by rw [AstStatement.toChild, AstStatement.toChild, body], rests⟩
    | _ => cases kinds
  | .returnStatement returned, other, rest, rest', next, next', same => by
    have kinds := childType_eq same
    cases other with
    | returnStatement returned' =>
      exact returnStatement_cancel next next' same
    | _ => cases kinds
  | .breakStatement, other, rest, rest', next, next', same => by
    have kinds := childType_eq same
    cases other with
    | breakStatement => exact ⟨rfl, List.append_cancel_left same⟩
    | _ => cases kinds
  | .continueStatement, other, rest, rest', next, next', same => by
    have kinds := childType_eq same
    cases other with
    | continueStatement => exact ⟨rfl, List.append_cancel_left same⟩
    | _ => cases kinds

private theorem AstBlock.cancel : ∀ (block other : AstBlock) (rest rest' : List LinearNode),
    linearizeAst block.toNode ++ rest = linearizeAst other.toNode ++ rest' → block.toNode = other.toNode ∧ rest = rest'
  | .mk fields statements, .mk fields' statements', rest, rest', same => by
    simp only [linearizeAst_block, List.cons_append, List.append_assoc, List.nil_append, List.cons.injEq,
      true_and] at same
    obtain ⟨declared, tails⟩ := linearizeChildren_fields_cancel (nextNot_statements _ _) (nextNot_statements _ _) same
    obtain ⟨nodes, rests⟩ := statements.cancel statements' _ _ tails
    exact ⟨by rw [AstBlock.toNode, AstBlock.toNode, declared, nodes], rests⟩

/-- Two lists of statements with one linear form are the same. -/
private theorem AstStatements.cancel : ∀ (statements others : AstStatements) (rest rest' : List LinearNode),
    linearizeChildren statements.toNodes ++ ⟨.blockEnd, none⟩ :: rest =
      linearizeChildren others.toNodes ++ ⟨.blockEnd, none⟩ :: rest' →
    statements.toNodes = others.toNodes ∧ rest = rest'
  | .nil, others, rest, rest', same => by
    cases others with
    | nil =>
      simp only [List.append_cancel_left_eq, List.cons.injEq, true_and] at same
      exact ⟨rfl, same⟩
    | cons statement' others =>
      rw [linearizeChildren_cons] at same
      simp [AstStatements.toNodes, linearizeChildren] at same
  | .cons statement statements, others, rest, rest', same => by
    rw [linearizeChildren_cons] at same
    cases others with
    | nil => simp [AstStatements.toNodes, linearizeChildren] at same
    | cons statement' others =>
      simp only [linearizeChildren_cons, List.cons_append, List.append_assoc, List.cons.injEq, true_and] at same
      obtain ⟨child, tails⟩ := statement.cancel statement' _ _ (nextNot_statement _ _) (nextNot_statement _ _) same
      obtain ⟨nodes, rests⟩ := statements.cancel others _ _ tails
      exact ⟨by rw [AstStatements.toNodes, AstStatements.toNodes, child, nodes], rests⟩

end

/-- Two methods with one linear form are the same. -/
private theorem AstMethod.cancel {method other : AstMethod} {rest rest' : List LinearNode}
    (same : linearizeAst method.toNode ++ rest = linearizeAst other.toNode ++ rest') :
    method.toNode = other.toNode ∧ rest = rest' := by
  obtain ⟨type, name, parameters, block⟩ := method
  obtain ⟨type', name', parameters', block'⟩ := other
  simp only [linearizeAst_method, List.cons_append, List.append_assoc, List.cons.injEq, LinearNode.mk.injEq,
    Option.some.injEq, true_and] at same
  obtain ⟨types, names, same⟩ := same
  have parameter : ∀ (parameter other : AstParameter) (rest rest' : List LinearNode), True → True →
      linearizeAst parameter.toNode ++ rest = linearizeAst other.toNode ++ rest' →
      parameter.toNode = other.toNode ∧ rest = rest' := by
    intro parameter other rest rest' _ _ same
    simp only [linearizeAst_parameter, List.cons_append, List.nil_append, List.cons.injEq, LinearNode.mk.injEq,
      Option.some.injEq, true_and] at same
    exact ⟨by rw [AstParameter.toNode, AstParameter.toNode, same.1, same.2.1], same.2.2⟩
  have next : ∀ (block : AstBlock) (rest : List LinearNode), NextNot [.methodArgument] (linearizeAst block.toNode ++ rest) := by
    intro block rest
    obtain ⟨nodes, head⟩ := linearizeAst_blockHead block
    rw [head]
    exact nextNot_cons (by simp)
  obtain ⟨nodes, tails⟩ := linearizeChildren_cancel (fun parameter => ⟨_, _, linearizeAst_parameter parameter⟩) parameter
    (fun _ _ => trivial) parameters parameters' trivial trivial (next _ _) (next _ _) same
  obtain ⟨body, rests⟩ := block.cancel block' _ _ tails
  refine ⟨?_, rests⟩
  by_cases void : type.type = .keywordVoid <;> by_cases void' : type'.type = .keywordVoid <;>
    simp_all [AstMethod.toNode]

/-- Two programs with one linear form have one syntax tree. -/
theorem AstProgram.linearizeAst_injective {program other : AstProgram}
    (same : linearizeAst program.toNode = linearizeAst other.toNode) : program.toNode = other.toNode := by
  obtain ⟨imports, fields, methods⟩ := program
  obtain ⟨imports', fields', methods'⟩ := other
  simp only [linearizeAst_program, List.cons.injEq, true_and] at same
  have oneImport : ∀ (name other : Token) (rest rest' : List LinearNode), True → True →
      linearizeAst (importNode name) ++ rest = linearizeAst (importNode other) ++ rest' →
      importNode name = importNode other ∧ rest = rest' := by
    intro name other rest rest' _ _ same
    simp_all [linearizeAst_import]
  obtain ⟨names, tails⟩ := linearizeChildren_cancel (fun name => ⟨_, _, linearizeAst_import name⟩) oneImport
    (fun _ _ => trivial) imports imports' trivial trivial (nextNot_fields _ _) (nextNot_fields _ _) same
  obtain ⟨declared, tails⟩ := linearizeChildren_fields_cancel (nextNot_methods _) (nextNot_methods _) tails
  have last : NextNot [.method] [(⟨.programEnd, none⟩ : LinearNode)] := nextNot_cons (by simp)
  obtain ⟨defined, _⟩ := linearizeChildren_cancel (fun method => ⟨_, _, linearizeAst_method method⟩)
    (fun _ _ _ _ (_ : True) _ same => AstMethod.cancel same) (fun _ _ => trivial) methods methods' trivial trivial last last tails
  rw [AstProgram.toNode, AstProgram.toNode, names, declared, defined]

end Roast
