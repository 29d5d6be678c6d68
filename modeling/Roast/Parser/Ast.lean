import Roast.Scanner.Scanner

/-! The syntax tree, `ast.c`. A node keeps the token it was built from; the token that `new_node` takes from the
place before a node only tells error messages where they are and is left out. -/
namespace Roast

inductive AstNodeType where
  | program | import | field | const | fieldIdentifier | emptyArrayLength | method | void | methodArgument | block
  | statement | assignment | ifStatement | forStatement | whileStatement | returnStatement | breakStatement
  | continueStatement | forUpdate | location | locationIndex | expression | binaryExpression | notExpression
  | negateExpression | lenExpression | methodCall | methodCallArgument | methodCallEnd | initializer | arrayLiteral
  | literal | literalNegation | assignOperator | incrementOperator | binaryOperator | dataType | identifier
  | charLiteral | stringLiteral | boolLiteral | intLiteral | programEnd | blockEnd
  deriving DecidableEq, Repr

inductive AstNode where
  | mk (type : AstNodeType) (token : Option Token) (children : List AstNode)

namespace AstNode

def inner (type : AstNodeType) (children : List AstNode) : AstNode := .mk type none children

def leaf (type : AstNodeType) (token : Token) : AstNode := .mk type (some token) []

end AstNode

structure LinearNode where
  type : AstNodeType
  token : Option Token
  deriving DecidableEq, Repr

/-- The node that `append_terminating_node` adds after the children, if any. -/
def AstNodeType.terminating : AstNodeType → List LinearNode
  | .program => [⟨.programEnd, none⟩]
  | .block => [⟨.blockEnd, none⟩]
  | _ => []

mutual

def linearizeAst : AstNode → List LinearNode
  | .mk type token children => ⟨type, token⟩ :: (linearizeChildren children ++ type.terminating)

def linearizeChildren : List AstNode → List LinearNode
  | [] => []
  | child :: rest => linearizeAst child ++ linearizeChildren rest

end

theorem terminating_of_plain {type : AstNodeType} (program : type ≠ .program) (block : type ≠ .block) :
    type.terminating = [] := by
  cases type <;> first | rfl | contradiction

@[simp] theorem linearizeChildren_append (first second : List AstNode) :
    linearizeChildren (first ++ second) = linearizeChildren first ++ linearizeChildren second := by
  induction first with
  | nil => rfl
  | cons child rest ih => simp only [List.cons_append, linearizeChildren, ih, List.append_assoc]

end Roast
