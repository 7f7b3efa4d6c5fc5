import AlRefactor.Token.Kind

/-!
# What the grammar complains about
-/

namespace AlRefactor

/-- What the grammar misses or cannot read. -/
inductive Problem where
  | missing (kind : TokenKind)
  | missingToOrDownTo
  | missingBodyOrSemicolon
  | missingProcedureOrTrigger
  | missingObject
  | missingObjectName
  | missingExtendedName
  | missingInterfaceName
  | missingMember
  | missingMemberName
  | missingOptionValue
  | missingExpression
  | missingStatement
  | missingVariableName
  | missingParameter
  | missingParameterName
  | missingProcedureName
  | missingType
  | unbalancedBrackets
  | unbalancedNodes
deriving DecidableEq, Repr, Inhabited

namespace Problem

def spelling : TokenKind → String
  | .lParen => "(" | .rParen => ")" | .lBracket => "[" | .rBracket => "]"
  | .lBrace => "\x7b" | .rBrace => "\x7d"
  | .semicolon => ";" | .colon => ":" | .assign => ":="
  | .kwEnd => "end" | .kwThen => "then" | .kwOf => "of" | .kwDo => "do" | .kwUntil => "until"
  | .kwIn => "in"
  | k => k.name

def message : Problem → String
  | .missing k => "expected '" ++ spelling k ++ "'"
  | .missingToOrDownTo => "expected 'to' or 'downto'"
  | .missingBodyOrSemicolon => "expected '\x7b' or ';'"
  | .missingProcedureOrTrigger => "expected 'procedure' or 'trigger'"
  | .missingObject => "expected object declaration"
  | .missingObjectName => "expected object name"
  | .missingExtendedName => "expected name of the extended object"
  | .missingInterfaceName => "expected interface name"
  | .missingMember => "expected member declaration"
  | .missingMemberName => "expected member name"
  | .missingOptionValue => "expected option value"
  | .missingExpression => "expected expression"
  | .missingStatement => "expected statement"
  | .missingVariableName => "expected variable name"
  | .missingParameter => "expected parameter"
  | .missingParameterName => "expected parameter name"
  | .missingProcedureName => "expected procedure name"
  | .missingType => "expected type"
  | .unbalancedBrackets => "unbalanced brackets"
  | .unbalancedNodes => "unbalanced node events"

end Problem

end AlRefactor
