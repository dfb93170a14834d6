import SymbolGraph.Text.Basic

/-!
# Json — reading a text as tokens

A JSON text is scanned into tokens, and a stack of open brackets decides whether the tokens form one
value.  Depth, and the size of numbers, are not limited.  Strings keep the spelling of their body:
a string that nobody looks at may hold any escapes of the right form, and only `Token.textOf?`,
which spells it out, insists that surrogates come in pairs.

* `Token.scan?`: the tokens of a text.
* `Token.isValue`: whether tokens form exactly one value.
* `Token.parts`: the items of an array or the members of an object, each as tokens.
-/

namespace SymbolGraph.Json

/-- A token of a JSON text. -/
inductive Token where
  | openObject
  | closeObject
  | openArray
  | closeArray
  | colon
  | comma
  | null
  | bool (value : Bool)
  | number
  | string (body : List Char)

namespace Token

/-! ### Scanning -/

/-- The value of a hexadecimal digit. -/
def hexValue (c : Char) : Option Nat :=
  if '0' ≤ c ∧ c ≤ '9' then some (c.toNat - '0'.toNat)
  else if 'a' ≤ c ∧ c ≤ 'f' then some (c.toNat - 'a'.toNat + 10)
  else if 'A' ≤ c ∧ c ≤ 'F' then some (c.toNat - 'A'.toNat + 10)
  else none

/-- The value of four hexadecimal digits. -/
def hexFour (a b c d : Char) : Option Nat := do
  return (((← hexValue a) * 16 + (← hexValue b)) * 16 + (← hexValue c)) * 16 + (← hexValue d)

/-- The character that follows a backslash, when it is a short escape. -/
def shortEscape : Char → Option Char
  | '"'  => some '"'
  | '\\' => some '\\'
  | '/'  => some '/'
  | 'b'  => some '\x08'
  | 'f'  => some '\x0c'
  | 'n'  => some '\n'
  | 'r'  => some '\r'
  | 't'  => some '\t'
  | _    => none

/-- The body of a string, after what was already passed, and the text after its closing quote. -/
def scanString : (passed text : List Char) → Option (List Char × List Char)
  | passed, '"' :: rest => some (passed.reverse, rest)
  | passed, '\\' :: 'u' :: a :: b :: c :: d :: rest =>
      if (hexFour a b c d).isSome then
        scanString (d :: c :: b :: a :: 'u' :: '\\' :: passed) rest
      else none
  | passed, '\\' :: e :: rest =>
      if (shortEscape e).isSome then scanString (e :: '\\' :: passed) rest else none
  | passed, c :: rest => if c.toNat < 0x20 then none else scanString (c :: passed) rest
  | _, [] => none

/-- What follows at least one digit. -/
def scanDigits : List Char → Option (List Char)
  | []      => none
  | c :: cs => if c.isDigit then some (cs.dropWhile Char.isDigit) else none

/-- What follows an exponent, if there is one. -/
def scanExponent : List Char → Option (List Char)
  | e :: rest =>
      if e = 'e' ∨ e = 'E' then
        match rest with
        | '+' :: digits => scanDigits digits
        | '-' :: digits => scanDigits digits
        | digits        => scanDigits digits
      else some (e :: rest)
  | [] => some []

/-- What follows a fraction and an exponent, if there are any. -/
def scanFraction : List Char → Option (List Char)
  | '.' :: digits => (scanDigits digits).bind scanExponent
  | rest          => scanExponent rest

/-- What follows a number without a sign; a zero in front stands alone. -/
def scanNumber : List Char → Option (List Char)
  | '0' :: d :: rest => if d.isDigit then none else scanFraction (d :: rest)
  | digits           => (scanDigits digits).bind scanFraction

/-- The tokens of a text after those passed, reading at most `fuel` tokens. -/
def scanWithin : (fuel : Nat) → (passed : List Token) → List Char → Option (List Token)
  | _,        passed, []        => some passed.reverse
  | 0,        _,      _ :: _    => none
  | fuel + 1, passed, c :: rest =>
      if c = ' ' ∨ c = '\t' ∨ c = '\n' ∨ c = '\r' then scanWithin fuel passed rest
      else if c = '\x7b' then scanWithin fuel (.openObject :: passed) rest
      else if c = '\x7d' then scanWithin fuel (.closeObject :: passed) rest
      else if c = '[' then scanWithin fuel (.openArray :: passed) rest
      else if c = ']' then scanWithin fuel (.closeArray :: passed) rest
      else if c = ':' then scanWithin fuel (.colon :: passed) rest
      else if c = ',' then scanWithin fuel (.comma :: passed) rest
      else if c = '"' then
        match scanString [] rest with
        | some (body, after) => scanWithin fuel (.string body :: passed) after
        | none               => none
      else if c = 'n' then
        match Text.dropStart? ['u', 'l', 'l'] rest with
        | some after => scanWithin fuel (.null :: passed) after
        | none       => none
      else if c = 't' then
        match Text.dropStart? ['r', 'u', 'e'] rest with
        | some after => scanWithin fuel (.bool true :: passed) after
        | none       => none
      else if c = 'f' then
        match Text.dropStart? ['a', 'l', 's', 'e'] rest with
        | some after => scanWithin fuel (.bool false :: passed) after
        | none       => none
      else
        match scanNumber (if c = '-' then rest else c :: rest) with
        | some after => scanWithin fuel (.number :: passed) after
        | none       => none

/-- The tokens of a text.  Each token takes a character at least. -/
def scan? (text : List Char) : Option (List Token) := scanWithin text.length [] text

/-! ### One value -/

/-- An open bracket. -/
inductive Bracket where
  | object
  | array
  deriving DecidableEq

/-- What may come next. -/
inductive Expected where
  | value
  | firstItem
  | firstKey
  | key
  | colon
  | separator
  deriving DecidableEq

/-- What is open and what may come next, after one more token. -/
def advance : List Bracket × Expected → Token → Option (List Bracket × Expected)
  | (stack, .colon), .colon              => some (stack, .value)
  | (stack, .key), .string _             => some (stack, .colon)
  | (stack, .firstKey), .string _        => some (stack, .colon)
  | (.object :: stack, .firstKey), .closeObject  => some (stack, .separator)
  | (.array :: stack, .firstItem), .closeArray   => some (stack, .separator)
  | (.object :: stack, .separator), .closeObject => some (stack, .separator)
  | (.array :: stack, .separator), .closeArray   => some (stack, .separator)
  | (.object :: stack, .separator), .comma       => some (.object :: stack, .key)
  | (.array :: stack, .separator), .comma        => some (.array :: stack, .value)
  | (stack, expected), token =>
      if expected = .value ∨ expected = .firstItem then
        match token with
        | .null | .bool _ | .number | .string _ => some (stack, .separator)
        | .openObject                           => some (.object :: stack, .firstKey)
        | .openArray                            => some (.array :: stack, .firstItem)
        | _                                     => none
      else none

/-- Whether the tokens form one value and nothing else. -/
def isValue (tokens : List Token) : Bool :=
  tokens.foldlM advance ([], .value) == some ([], .separator)

/-! ### Parts of a value -/

/-- The pieces between the commas that stand outside all brackets. -/
def splitAt : (depth : Nat) → (current : List Token) → List Token → List (List Token)
  | _,     current, []              => [current.reverse]
  | 0,     current, .comma :: ts    => current.reverse :: splitAt 0 [] ts
  | depth, current, t :: ts         =>
      let deeper := match t with
        | .openObject | .openArray   => depth + 1
        | .closeObject | .closeArray => depth - 1
        | _                          => depth
      splitAt deeper (t :: current) ts

/-- The items of an array or the members of an object. -/
def parts (value : List Token) : List (List Token) :=
  match value.tail.dropLast with
  | []     => []
  | inside => splitAt 0 [] inside

/-- A character by its number; surrogates are no characters. -/
def charOf? (n : Nat) : Option Char := if h : n.isValidChar then some (Char.ofNatAux n h) else none

/-- The text a string body spells, after what was already spelled. -/
def spell : (spelled body : List Char) → Option (List Char)
  | spelled, [] => some spelled.reverse
  | spelled, '\\' :: 'u' :: a :: b :: c :: d :: rest =>
      match hexFour a b c d with
      | none   => none
      | some n =>
          if 0xD800 ≤ n ∧ n < 0xDC00 then
            match rest with
            | '\\' :: 'u' :: e :: f :: g :: h :: rest =>
                match hexFour e f g h with
                | some m =>
                    if 0xDC00 ≤ m ∧ m < 0xE000 then
                      match charOf? (0x10000 + (n - 0xD800) * 0x400 + (m - 0xDC00)) with
                      | some x => spell (x :: spelled) rest
                      | none   => none
                    else none
                | none => none
            | _ => none
          else
            match charOf? n with
            | some x => spell (x :: spelled) rest
            | none   => none
  | spelled, '\\' :: e :: rest =>
      match shortEscape e with
      | some x => spell (x :: spelled) rest
      | none   => none
  | spelled, c :: rest => spell (c :: spelled) rest

/-- The text of a string value. -/
def textOf? : List Token → Option String
  | [.string body] => (spell [] body).map String.ofList
  | _              => none

/-- The value of a truth value. -/
def boolOf? : List Token → Option Bool
  | [.bool value] => some value
  | _             => none

/-- A value that may be `null`. -/
def optionOf? {α : Type} (read : List Token → Option α) : List Token → Option (Option α)
  | [.null] => some none
  | value   => (read value).map some

/-- The members of an object with their keys spelled out. -/
def membersOf? (value : List Token) : Option (List (String × List Token)) :=
  (parts value).mapM fun
    | .string key :: .colon :: inside => (textOf? [.string key]).map fun name => (name, inside)
    | _                               => none

/-- The value of a member that occurs at most once. -/
def member? (members : List (String × List Token)) (name : String) : Option (Option (List Token)) :=
  match members.filter fun m => m.1 = name with
  | []  => some none
  | [m] => some (some m.2)
  | _   => none

end Token

end SymbolGraph.Json
