import PathQuery.Json.Number
import PathQuery.Text.Escape

namespace PathQuery.Value

def scalarText : Value → String
  | null => "null"
  | bool true => "true"
  | bool false => "false"
  | number n => n.text
  | string s => Text.quoted '"' s
  | array _ => "[]"
  | object _ => "\x7b\x7d"

mutual

/-- The text without blanks. -/
def text : Value → String
  | array vs => "[" ++ String.intercalate "," (elementTexts vs) ++ "]"
  | object ms => "\x7b" ++ String.intercalate "," (memberTexts ms) ++ "\x7d"
  | v => scalarText v

def elementTexts : List Value → List String
  | [] => []
  | v :: vs => text v :: elementTexts vs

def memberTexts : List (String × Value) → List String
  | [] => []
  | (name, v) :: ms => (Text.quoted '"' name ++ ":" ++ text v) :: memberTexts ms

end

/-- A line break and the indentation of a level. -/
def newline (level : Nat) : String :=
  String.ofList ('\n' :: List.replicate (2 * level) ' ')

/-- Items between brackets, each on a line of its own. -/
def block (left right : String) (level : Nat) (items : List String) : String :=
  left ++ newline (level + 1) ++ String.intercalate ("," ++ newline (level + 1)) items ++ newline level ++ right

mutual

/-- The text with each element and member on a line of its own; empty containers stay closed. -/
def indentedAt (level : Nat) : Value → String
  | array (v :: vs) => block "[" "]" level (indentedElements (level + 1) (v :: vs))
  | object (m :: ms) => block "\x7b" "\x7d" level (indentedMembers (level + 1) (m :: ms))
  | v => scalarText v

def indentedElements (level : Nat) : List Value → List String
  | [] => []
  | v :: vs => indentedAt level v :: indentedElements level vs

def indentedMembers (level : Nat) : List (String × Value) → List String
  | [] => []
  | (name, v) :: ms => (Text.quoted '"' name ++ ": " ++ indentedAt level v) :: indentedMembers level ms

end

def indented (v : Value) : String := indentedAt 0 v

end PathQuery.Value
