import PathQuery.Text.Position

namespace PathQuery

/-- Why a query or location text is refused. -/
inductive SyntaxFault
  | unexpectedEnd
  | expectedName
  | expectedQueryStart
  | expectedNode
  | expectedSeparator
  | expectedClosingBracket
  | expectedComparator
  | expectedOr
  | expectedAnd
  | expectedSlash
  | expectedQuoteOrDigit
  | badNumber
  | zeroStep
  | unbalancedParenthesis
  | unbalancedBraces
  | unknownEscape
  | badCodePoint
  | unknownFunction
  | wrongArity
  | badPattern
  | badLiteral
  | malformed
  deriving DecidableEq

namespace SyntaxFault

def message : SyntaxFault → String
  | unexpectedEnd => "Unexpected end of input"
  | expectedName => "Expected a key"
  | expectedQueryStart => "Expected '$' or a function call at start"
  | expectedNode => "Expected '$' or '@'"
  | expectedSeparator => "Expected '.', '[' or an operator"
  | expectedClosingBracket => "Expected ']'"
  | expectedComparator => "Expected a comparator"
  | expectedOr => "Expected '||'"
  | expectedAnd => "Expected '&&'"
  | expectedSlash => "Expected '/' to open a regular expression"
  | expectedQuoteOrDigit => "Expected a single quote or a digit"
  | badNumber => "Invalid number"
  | zeroStep => "Slice step cannot be zero"
  | unbalancedParenthesis => "Unbalanced parenthesis"
  | unbalancedBraces => "Unbalanced braces"
  | unknownEscape => "Illegal escaped character"
  | badCodePoint => "Invalid code point"
  | unknownFunction => "Unknown function"
  | wrongArity => "Wrong number of function arguments"
  | badPattern => "Invalid regular expression"
  | badLiteral => "Invalid JSON literal"
  | malformed => "Syntax error"

/-- A stable name for programs that read errors. -/
def code : SyntaxFault → String
  | unexpectedEnd => "unexpected_eof"
  | expectedName => "expected_key"
  | expectedQueryStart => "expected_root_or_function"
  | expectedNode => "expected_root_or_current_node"
  | expectedSeparator => "expected_separator"
  | expectedClosingBracket => "expected_rbracket"
  | expectedComparator => "expected_comparator"
  | expectedOr => "expected_or"
  | expectedAnd => "expected_and"
  | expectedSlash => "expected_forward_slash"
  | expectedQuoteOrDigit => "expected_single_quote_or_digit"
  | badNumber => "invalid_number"
  | zeroStep => "step_cannot_be_zero"
  | unbalancedParenthesis => "unbalanced_parenthesis"
  | unbalancedBraces => "unbalanced_braces"
  | unknownEscape => "illegal_escaped_character"
  | badCodePoint => "invalid_codepoint"
  | unknownFunction => "unknown_function"
  | wrongArity => "invalid_arity"
  | badPattern => "invalid_regex"
  | badLiteral => "invalid_literal"
  | malformed => "syntax_error"

end SyntaxFault

/-- A fault and the position of the character that shows it, one behind the last character if the text ends. -/
structure SyntaxError where
  fault : SyntaxFault
  position : Text.Position
  deriving DecidableEq

def SyntaxError.message (e : SyntaxError) : String :=
  e.fault.message ++ " at line " ++ e.position.line.repr ++ " and column " ++ e.position.column.repr

end PathQuery
