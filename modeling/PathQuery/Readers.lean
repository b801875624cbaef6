import PathQuery.Json.Value

namespace PathQuery

/-- A regular expression that has been read, by what it says of texts. -/
structure Pattern where
  /-- Whether a text has a match anywhere. -/
  isMatch : String → Bool
  /-- The parts of a text that lie between the matches. -/
  split : String → List String

/-- How texts of two languages that queries embed are read. -/
structure Readers where
  /-- The value of a JSON text, if it is one. -/
  json? : String → Option Value
  /-- A regular expression, with letters matching in either case if the flag is set; or what is wrong with it. -/
  pattern : String → Bool → Except String Pattern

namespace Readers

/-- The number that a JSON text is. -/
def number? (r : Readers) (s : String) : Option Number := (r.json? s).bind Value.asNumber?

/-- Whether a text is a regular expression. -/
def isPattern (r : Readers) (s : String) (fold : Bool) : Bool := (r.pattern s fold).isOk

end Readers

end PathQuery
