import AlRefactor.Token.Lexer
import AlRefactor.Syntax.Kind

/-!
# Syntax trees without positions
-/

namespace AlRefactor

/-- The shape of a source text: its significant lexemes as leaves below the constructs they form. -/
inductive Tree where
  | leaf (lexeme : Lexeme)
  | node (kind : Kind) (children : List Tree)
deriving Inhabited

namespace Tree

def kind : Tree → Kind
  | .leaf l => l.kind
  | .node k _ => k

mutual
def leaves : Tree → List Lexeme
  | .leaf l => [l]
  | .node _ ts => leavesOf ts

def leavesOf : List Tree → List Lexeme
  | [] => []
  | t :: ts => leaves t ++ leavesOf ts
end

end Tree

end AlRefactor
