import SymbolGraph.Text.Basic

/-!
# Json — values and their compact form

JSON values as the graph writes them: numbers are natural, and the members of an object keep their
order.  `Json.render` writes a value without blanks.  In a string the quote, the backslash and the
control characters are escaped and everything else stands for itself.
-/

namespace SymbolGraph

/-- A JSON value. -/
inductive Json where
  | null
  | bool (value : Bool)
  | num (value : Nat)
  | str (value : String)
  | arr (items : List Json)
  | obj (members : List (String × Json))

namespace Json

/-- The two lower-case hexadecimal digits of a number below 256. -/
def hexPair (n : Nat) : List Char := [Nat.digitChar (n / 16), Nat.digitChar (n % 16)]

/-- A character inside a string. -/
def escaped (c : Char) : List Char :=
  if c = '"' then ['\\', '"']
  else if c = '\\' then ['\\', '\\']
  else if c = '\x08' then ['\\', 'b']
  else if c = '\x0c' then ['\\', 'f']
  else if c = '\n' then ['\\', 'n']
  else if c = '\r' then ['\\', 'r']
  else if c = '\t' then ['\\', 't']
  else if c.toNat < 0x20 then ['\\', 'u', '0', '0'] ++ hexPair c.toNat
  else [c]

/-- A text in quotes. -/
def quoted (text : String) : List Char := '"' :: (text.toList.flatMap escaped ++ ['"'])

mutual

/-- The compact form of a value. -/
def render : Json → List Char
  | .null        => "null".toList
  | .bool true   => "true".toList
  | .bool false  => "false".toList
  | .num n       => Nat.toDigits 10 n
  | .str s       => quoted s
  | .arr items   => '[' :: (renderItems items ++ [']'])
  | .obj members => '\x7b' :: (renderMembers members ++ ['\x7d'])

/-- The items of an array with commas between them. -/
def renderItems : List Json → List Char
  | []            => []
  | [item]        => item.render
  | item :: items => item.render ++ ',' :: renderItems items

/-- The members of an object with commas between them. -/
def renderMembers : List (String × Json) → List Char
  | []                => []
  | [member]          => renderMember member
  | member :: members => renderMember member ++ ',' :: renderMembers members

/-- A key, a colon and a value. -/
def renderMember : String × Json → List Char
  | (key, value) => quoted key ++ ':' :: value.render

end

end Json

end SymbolGraph
