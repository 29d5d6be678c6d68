import Roast.Parser.Grammar

/-! The linear form of a syntax tree, `ast_node_linearize`: the form of each kind of node, and that no two trees of
the grammar have the same one. -/
namespace Roast

theorem linearizeAst_leaf (type : AstNodeType) (token : Token) :
    linearizeAst (.leaf type token) = ⟨type, some token⟩ :: type.terminating := rfl

theorem linearizeAst_inner (type : AstNodeType) (children : List AstNode) :
    linearizeAst (.inner type children) = ⟨type, none⟩ :: (linearizeChildren children ++ type.terminating) := rfl

def NextNot (types : List AstNodeType) (nodes : List LinearNode) : Prop :=
  ∃ node rest, nodes = node :: rest ∧ node.type ∉ types

theorem nextNot_cons {types : List AstNodeType} {node : LinearNode} {rest : List LinearNode} (other : node.type ∉ types) :
    NextNot types (node :: rest) := ⟨node, rest, rfl, other⟩

theorem NextNot.mono {types others : List AstNodeType} {nodes : List LinearNode} (next : NextNot types nodes)
    (subset : others ⊆ types) : NextNot others nodes := by
  obtain ⟨node, rest, rfl, other⟩ := next
  exact nextNot_cons fun mem => other (subset mem)

theorem linearizeAst_literal (literal : AstLiteral) : linearizeAst literal.toNode = ⟨.literal, none⟩ ::
    ((literal.negation.map fun minus => ⟨.literalNegation, some minus⟩).toList ++
      [⟨literalNodeType literal.value.type, some literal.value⟩]) := by
  obtain ⟨negation, value⟩ := literal
  have kinds : literalNodeType value.type = .boolLiteral ∨ literalNodeType value.type = .intLiteral ∨
      literalNodeType value.type = .charLiteral := by
    unfold literalNodeType
    split <;> simp
  cases negation <;> rcases kinds with kind | kind | kind <;>
    simp [AstLiteral.toNode, linearizeAst_inner, linearizeAst_leaf, linearizeChildren, terminating_of_plain, kind]

theorem linearizeAst_binary (left right : AstExpression) (operator : Token) :
    linearizeAst (AstExpression.binary left operator right).toNode = ⟨.expression, none⟩ :: ⟨.binaryExpression, none⟩ ::
      (linearizeAst left.toNode ++ ⟨.binaryOperator, some operator⟩ :: linearizeAst right.toNode) := by
  show linearizeAst (.inner .expression
    [.inner .binaryExpression [left.toNode, .leaf .binaryOperator operator, right.toNode]]) = _
  simp [linearizeAst_inner, linearizeAst_leaf, linearizeChildren, terminating_of_plain]

theorem linearizeAst_call (call : AstCall) : linearizeAst call.toNode = ⟨.methodCall, none⟩ ::
    ⟨.identifier, some call.identifier⟩ :: (linearizeChildren call.arguments.toNodes ++ [⟨.methodCallEnd, none⟩]) := by
  simp [AstCall.toNode, linearizeAst_inner, linearizeAst_leaf, linearizeChildren, terminating_of_plain]

theorem linearizeAst_callHead (call : AstCall) : ∃ nodes, linearizeAst call.toNode = ⟨.methodCall, none⟩ :: nodes :=
  ⟨_, rfl⟩

theorem linearizeAst_methodCall (name : Token) (arguments : AstArguments) :
    linearizeAst (AstExpression.methodCall name arguments).toNode =
      ⟨.expression, none⟩ :: linearizeAst (AstCall.toNode ⟨name, arguments⟩) := by
  show linearizeAst (.inner .expression [AstCall.toNode ⟨name, arguments⟩]) = _
  simp [linearizeAst_inner, linearizeChildren, terminating_of_plain]

theorem linearizeAst_expression (expression : AstExpression) :
    ∃ nodes, linearizeAst expression.toNode = ⟨.expression, none⟩ :: nodes := by
  cases expression <;> exact ⟨_, rfl⟩

theorem linearizeAst_not (operand : AstExpression) : linearizeAst (AstExpression.not operand).toNode =
    ⟨.expression, none⟩ :: ⟨.notExpression, none⟩ :: linearizeAst operand.toNode := by
  show linearizeAst (.inner .expression [.inner .notExpression [operand.toNode]]) = _
  simp [linearizeAst_inner, linearizeChildren, terminating_of_plain]

theorem linearizeAst_negate (operand : AstExpression) : linearizeAst (AstExpression.negate operand).toNode =
    ⟨.expression, none⟩ :: ⟨.negateExpression, none⟩ :: linearizeAst operand.toNode := by
  show linearizeAst (.inner .expression [.inner .negateExpression [operand.toNode]]) = _
  simp [linearizeAst_inner, linearizeChildren, terminating_of_plain]

theorem linearizeAst_len (name : Token) : linearizeAst (AstExpression.len name).toNode =
    [⟨.expression, none⟩, ⟨.lenExpression, none⟩, ⟨.identifier, some name⟩] := rfl

theorem linearizeAst_literalExpression (literal : AstLiteral) :
    linearizeAst (AstExpression.literal literal).toNode = ⟨.expression, none⟩ :: linearizeAst literal.toNode := by
  show linearizeAst (.inner .expression [literal.toNode]) = _
  simp [linearizeAst_inner, linearizeChildren, terminating_of_plain]

theorem linearizeAst_scalar (name : Token) : linearizeAst (AstExpression.scalar name).toNode =
    [⟨.expression, none⟩, ⟨.location, none⟩, ⟨.identifier, some name⟩] := rfl

theorem linearizeAst_element (name : Token) (index : AstExpression) :
    linearizeAst (AstExpression.element name index).toNode = ⟨.expression, none⟩ :: ⟨.location, none⟩ ::
      ⟨.identifier, some name⟩ :: ⟨.locationIndex, none⟩ :: linearizeAst index.toNode := by
  show linearizeAst (.inner .expression
    [.inner .location [.leaf .identifier name, .inner .locationIndex [index.toNode]]]) = _
  simp [linearizeAst_inner, linearizeAst_leaf, linearizeChildren, terminating_of_plain]

theorem linearizeChildren_string (string : Token) (rest : AstArguments) :
    linearizeChildren (AstArguments.string string rest).toNodes =
      ⟨.methodCallArgument, none⟩ :: ⟨.stringLiteral, some string⟩ :: linearizeChildren rest.toNodes := by
  show linearizeChildren (.inner .methodCallArgument [.leaf .stringLiteral string] :: rest.toNodes) = _
  simp [linearizeAst_inner, linearizeAst_leaf, linearizeChildren, terminating_of_plain]

theorem linearizeChildren_expression (expression : AstExpression) (rest : AstArguments) :
    linearizeChildren (AstArguments.expression expression rest).toNodes =
      ⟨.methodCallArgument, none⟩ :: (linearizeAst expression.toNode ++ linearizeChildren rest.toNodes) := by
  show linearizeChildren (.inner .methodCallArgument [expression.toNode] :: rest.toNodes) = _
  simp [linearizeAst_inner, linearizeChildren, terminating_of_plain]

/-- The arguments of a call are followed by another argument or by the end of the call. -/
theorem nextNot_arguments (arguments : AstArguments) (rest : List LinearNode) :
    NextNot [.locationIndex] (linearizeChildren arguments.toNodes ++ ⟨.methodCallEnd, none⟩ :: rest) := by
  cases arguments with
  | nil => exact nextNot_cons (by simp)
  | string string others =>
    rw [linearizeChildren_string]
    exact nextNot_cons (by simp)
  | expression expression others =>
    rw [linearizeChildren_expression]
    exact nextNot_cons (by simp)

theorem linearizeAst_assign (location : AstLocation) (operator : Token) (expression : AstExpression) :
    linearizeAst (AstAssignment.assign location operator expression).toNode = ⟨.assignment, none⟩ ::
      (linearizeAst location.toNode ++ ⟨.assignOperator, some operator⟩ :: linearizeAst expression.toNode) := by
  simp [AstAssignment.toNode, linearizeAst_inner, linearizeAst_leaf, linearizeChildren, terminating_of_plain]

theorem linearizeAst_increment (location : AstLocation) (operator : Token) :
    linearizeAst (AstAssignment.increment location operator).toNode = ⟨.assignment, none⟩ ::
      (linearizeAst location.toNode ++ [⟨.incrementOperator, some operator⟩]) := by
  simp [AstAssignment.toNode, linearizeAst_inner, linearizeAst_leaf, linearizeChildren, terminating_of_plain]

theorem linearizeAst_assignment (assignment : AstAssignment) :
    ∃ nodes, linearizeAst assignment.toNode = ⟨.assignment, none⟩ :: nodes := by
  cases assignment <;> exact ⟨_, rfl⟩

theorem linearizeAst_updateCall (call : AstCall) : linearizeAst (AstForUpdate.methodCall call).toNode =
    ⟨.forUpdate, none⟩ :: linearizeAst call.toNode := by
  simp [AstForUpdate.toNode, linearizeAst_inner, linearizeChildren, terminating_of_plain]

theorem linearizeAst_updateAssignment (assignment : AstAssignment) :
    linearizeAst (AstForUpdate.assignment assignment).toNode = ⟨.forUpdate, none⟩ :: linearizeAst assignment.toNode := by
  simp [AstForUpdate.toNode, linearizeAst_inner, linearizeChildren, terminating_of_plain]

theorem linearizeAst_scalarInitializer (literal : AstLiteral) :
    linearizeAst (AstInitializer.scalar literal).toNode = ⟨.initializer, none⟩ :: linearizeAst literal.toNode := by
  simp [AstInitializer.toNode, linearizeAst_inner, linearizeChildren, terminating_of_plain]

theorem linearizeAst_arrayInitializer (literals : List AstLiteral) :
    linearizeAst (AstInitializer.array literals).toNode = ⟨.initializer, none⟩ :: ⟨.arrayLiteral, none⟩ ::
      linearizeChildren (literals.map AstLiteral.toNode) := by
  simp [AstInitializer.toNode, linearizeAst_inner, linearizeChildren, terminating_of_plain]

theorem linearizeAst_initializer (initializer : AstInitializer) :
    ∃ nodes, linearizeAst initializer.toNode = ⟨.initializer, none⟩ :: nodes := by
  cases initializer <;> exact ⟨_, rfl⟩

theorem linearizeAst_plain (name : Token) (length : AstLength) :
    linearizeAst (AstDeclarator.toNode ⟨name, length, none⟩) =
      ⟨.fieldIdentifier, none⟩ :: ⟨.identifier, some name⟩ :: linearizeChildren length.toNodes := by
  simp [AstDeclarator.toNode, linearizeAst_inner, linearizeAst_leaf, linearizeChildren, terminating_of_plain]

theorem linearizeAst_initialized (name : Token) (length : AstLength) (initializer : AstInitializer) :
    linearizeAst (AstDeclarator.toNode ⟨name, length, some initializer⟩) = ⟨.fieldIdentifier, none⟩ ::
      ⟨.identifier, some name⟩ :: (linearizeChildren length.toNodes ++ linearizeAst initializer.toNode) := by
  simp [AstDeclarator.toNode, linearizeAst_inner, linearizeAst_leaf, linearizeChildren, terminating_of_plain]

theorem linearizeAst_field (field : AstField) : linearizeAst field.toNode = ⟨.field, none⟩ ::
    ((if field.constant then [⟨.const, none⟩] else []) ++ ⟨.dataType, some field.type⟩ ::
      linearizeChildren (field.declarators.map AstDeclarator.toNode)) := by
  obtain ⟨constant, type, declarators⟩ := field
  cases constant <;>
    simp [AstField.toNode, linearizeAst_inner, linearizeAst_leaf, linearizeChildren, terminating_of_plain]

private theorem linearizeAst_statement (statement : AstStatement) :
    linearizeAst (.inner .statement [statement.toChild]) = ⟨.statement, none⟩ :: linearizeAst statement.toChild := by
  simp [linearizeAst_inner, linearizeChildren, terminating_of_plain]

theorem linearizeAst_if (condition : AstExpression) (ifBlock : AstBlock) :
    linearizeAst (AstStatement.ifStatement condition ifBlock).toChild = ⟨.ifStatement, none⟩ ::
      (linearizeAst condition.toNode ++ linearizeAst ifBlock.toNode) := by
  show linearizeAst (.inner .ifStatement [condition.toNode, ifBlock.toNode]) = _
  simp [linearizeAst_inner, linearizeChildren, terminating_of_plain]

theorem linearizeAst_ifElse (condition : AstExpression) (ifBlock elseBlock : AstBlock) :
    linearizeAst (AstStatement.ifElseStatement condition ifBlock elseBlock).toChild = ⟨.ifStatement, none⟩ ::
      (linearizeAst condition.toNode ++ (linearizeAst ifBlock.toNode ++ linearizeAst elseBlock.toNode)) := by
  show linearizeAst (.inner .ifStatement [condition.toNode, ifBlock.toNode, elseBlock.toNode]) = _
  simp [linearizeAst_inner, linearizeChildren, terminating_of_plain]

theorem linearizeAst_for (name : Token) (initial condition : AstExpression) (update : AstForUpdate) (block : AstBlock) :
    linearizeAst (AstStatement.forStatement name initial condition update block).toChild = ⟨.forStatement, none⟩ ::
      ⟨.identifier, some name⟩ :: (linearizeAst initial.toNode ++ (linearizeAst condition.toNode ++
        (linearizeAst update.toNode ++ linearizeAst block.toNode))) := by
  show linearizeAst (.inner .forStatement
    [.leaf .identifier name, initial.toNode, condition.toNode, update.toNode, block.toNode]) = _
  simp [linearizeAst_inner, linearizeAst_leaf, linearizeChildren, terminating_of_plain]

theorem linearizeAst_while (condition : AstExpression) (block : AstBlock) :
    linearizeAst (AstStatement.whileStatement condition block).toChild = ⟨.whileStatement, none⟩ ::
      (linearizeAst condition.toNode ++ linearizeAst block.toNode) := by
  show linearizeAst (.inner .whileStatement [condition.toNode, block.toNode]) = _
  simp [linearizeAst_inner, linearizeChildren, terminating_of_plain]

theorem linearizeAst_return : linearizeAst (AstStatement.returnStatement none).toChild = [⟨.returnStatement, none⟩] := rfl

theorem linearizeAst_returnExpression (expression : AstExpression) :
    linearizeAst (AstStatement.returnStatement (some expression)).toChild =
      ⟨.returnStatement, none⟩ :: linearizeAst expression.toNode := by
  show linearizeAst (.inner .returnStatement [expression.toNode]) = _
  simp [linearizeAst_inner, linearizeChildren, terminating_of_plain]

theorem linearizeAst_block (fields : List AstField) (statements : AstStatements) :
    linearizeAst (AstBlock.mk fields statements).toNode = ⟨.block, none⟩ ::
      (linearizeChildren (fields.map AstField.toNode) ++
        (linearizeChildren statements.toNodes ++ [⟨.blockEnd, none⟩])) := by
  show linearizeAst (.inner .block (fields.map AstField.toNode ++ statements.toNodes)) = _
  rw [linearizeAst_inner, linearizeChildren_append, List.append_assoc]
  rfl

theorem linearizeChildren_cons (statement : AstStatement) (rest : AstStatements) :
    linearizeChildren (AstStatements.cons statement rest).toNodes =
      ⟨.statement, none⟩ :: (linearizeAst statement.toChild ++ linearizeChildren rest.toNodes) := by
  show linearizeChildren (.inner .statement [statement.toChild] :: rest.toNodes) = _
  rw [linearizeChildren, linearizeAst_statement, List.cons_append]

theorem linearizeAst_parameter (parameter : AstParameter) : linearizeAst parameter.toNode =
    [⟨.methodArgument, none⟩, ⟨.dataType, some parameter.type⟩, ⟨.identifier, some parameter.identifier⟩] := rfl

theorem linearizeAst_method (method : AstMethod) : linearizeAst method.toNode = ⟨.method, none⟩ ::
    (if method.type.type = .keywordVoid then ⟨.void, none⟩ else ⟨.dataType, some method.type⟩) ::
      ⟨.identifier, some method.identifier⟩ ::
        (linearizeChildren (method.parameters.map AstParameter.toNode) ++ linearizeAst method.block.toNode) := by
  by_cases void : method.type.type = .keywordVoid <;>
    simp [AstMethod.toNode, void, linearizeAst_inner, linearizeAst_leaf, linearizeChildren, terminating_of_plain]

abbrev importNode (name : Token) : AstNode := .inner .import [.leaf .identifier name]

theorem linearizeAst_program (program : AstProgram) : linearizeAst program.toNode = ⟨.program, none⟩ ::
    (linearizeChildren (program.imports.map importNode) ++
      (linearizeChildren (program.fields.map AstField.toNode) ++
        (linearizeChildren (program.methods.map AstMethod.toNode) ++ [⟨.programEnd, none⟩]))) := by
  rw [AstProgram.toNode, linearizeAst_inner, linearizeChildren_append, linearizeChildren_append, List.append_assoc,
    List.append_assoc]
  rfl

theorem linearizeAst_import (name : Token) : linearizeAst (importNode name) =
    [⟨.import, none⟩, ⟨.identifier, some name⟩] := rfl

abbrev declaratorNodes : List AstNodeType := [.emptyArrayLength, .intLiteral, .initializer, .literal]

abbrev fieldNodes : List AstNodeType := .fieldIdentifier :: declaratorNodes

abbrev statementNodes : List AstNodeType := [.locationIndex, .block, .expression]

theorem linearizeAst_blockHead (block : AstBlock) : ∃ nodes, linearizeAst block.toNode = ⟨.block, none⟩ :: nodes := by
  cases block
  exact ⟨_, rfl⟩

theorem nextNot_block (block : AstBlock) (rest : List LinearNode) :
    NextNot [.locationIndex] (linearizeAst block.toNode ++ rest) := by
  obtain ⟨nodes, same⟩ := linearizeAst_blockHead block
  rw [same]
  exact nextNot_cons (by simp)

theorem nextNot_expression (expression : AstExpression) (rest : List LinearNode) :
    NextNot [.locationIndex] (linearizeAst expression.toNode ++ rest) := by
  obtain ⟨nodes, same⟩ := linearizeAst_expression expression
  rw [same]
  exact nextNot_cons (by simp)

theorem nextNot_update (update : AstForUpdate) (rest : List LinearNode) :
    NextNot [.locationIndex] (linearizeAst update.toNode ++ rest) := by
  cases update with
  | methodCall call =>
    rw [linearizeAst_updateCall]
    exact nextNot_cons (by simp)
  | assignment assignment =>
    rw [linearizeAst_updateAssignment]
    exact nextNot_cons (by simp)

/-- What follows the fields of a block begins a statement or ends the block. -/
theorem nextNot_statements (statements : AstStatements) (rest : List LinearNode) :
    NextNot (.field :: fieldNodes) (linearizeChildren statements.toNodes ++ ⟨.blockEnd, none⟩ :: rest) := by
  cases statements with
  | nil => exact nextNot_cons (by simp)
  | cons statement others =>
    rw [linearizeChildren_cons]
    exact nextNot_cons (by simp)

theorem nextNot_statement (statements : AstStatements) (rest : List LinearNode) :
    NextNot statementNodes (linearizeChildren statements.toNodes ++ ⟨.blockEnd, none⟩ :: rest) := by
  cases statements with
  | nil => exact nextNot_cons (by simp)
  | cons statement others =>
    rw [linearizeChildren_cons]
    exact nextNot_cons (by simp)

/-- What follows the fields of a program begins a method or ends the program. -/
theorem nextNot_methods (methods : List AstMethod) :
    NextNot (.field :: fieldNodes) (linearizeChildren (methods.map AstMethod.toNode) ++ [⟨.programEnd, none⟩]) := by
  cases methods with
  | nil => exact nextNot_cons (by simp)
  | cons method methods =>
    rw [List.map_cons, linearizeChildren, linearizeAst_method]
    exact nextNot_cons (by simp)

/-- What follows the imports of a program begins a field or a method or ends the program. -/
theorem nextNot_fields (fields : List AstField) (methods : List AstMethod) :
    NextNot [.import] (linearizeChildren (fields.map AstField.toNode) ++
      (linearizeChildren (methods.map AstMethod.toNode) ++ [⟨.programEnd, none⟩])) := by
  cases fields with
  | nil =>
    cases methods with
    | nil => exact nextNot_cons (by simp)
    | cons method methods =>
      rw [List.map_nil, List.map_cons, linearizeChildren, List.nil_append, linearizeChildren, linearizeAst_method]
      exact nextNot_cons (by simp)
  | cons field fields =>
    rw [List.map_cons, linearizeChildren, linearizeAst_field]
    exact nextNot_cons (by simp)

theorem length_le_linearizeChildren (nodes : List AstNode) : nodes.length ≤ (linearizeChildren nodes).length := by
  induction nodes with
  | nil => simp
  | cons node rest ih =>
    obtain ⟨type, token, children⟩ := node
    simp only [linearizeChildren, linearizeAst, List.length_cons, List.length_append]
    omega

theorem length_linearizeAst_le {nodes : List AstNode} {node : AstNode} (mem : node ∈ nodes) :
    (linearizeAst node).length ≤ (linearizeChildren nodes).length := by
  induction nodes with
  | nil => cases mem
  | cons first rest ih =>
    simp only [linearizeChildren, List.length_append]
    rcases List.mem_cons.mp mem with rfl | mem
    · omega
    · have := ih mem
      omega

end Roast
