/-!
# Text — pieces of a text

Cutting texts apart, on lists of characters: at a given start or ending, at the first or last
occurrence of a separator, or at every occurrence.  Numbers are written in plain decimal.
-/

namespace SymbolGraph.Text

/-- The decimal digits of `n`, without leading zeros. -/
def decimal (n : Nat) : String := String.ofList (Nat.toDigits 10 n)

/-- What follows `start`, when the text starts with it. -/
def dropStart? : (start text : List Char) → Option (List Char)
  | [],      text    => some text
  | _ :: _,  []      => none
  | s :: ss, c :: cs => if s = c then dropStart? ss cs else none

/-- What precedes `ending`, when the text ends with it. -/
def dropEnding? (ending text : List Char) : Option (List Char) :=
  (dropStart? ending.reverse text.reverse).map List.reverse

/-- The text before and after the first `sep`. -/
def splitOnce (sep : Char) : List Char → Option (List Char × List Char)
  | []      => none
  | c :: cs =>
      if c = sep then some ([], cs)
      else (splitOnce sep cs).map fun (before, after) => (c :: before, after)

/-- The text before and after the last `sep`. -/
def splitLast (sep : Char) (text : List Char) : Option (List Char × List Char) :=
  (splitOnce sep text.reverse).map fun (after, before) => (before.reverse, after.reverse)

/-- The pieces between the separators: one more than there are separators. -/
def pieces (sep : Char) : List Char → List (List Char)
  | []      => [[]]
  | c :: cs =>
      if c = sep then [] :: pieces sep cs
      else match pieces sep cs with
        | []      => [[c]]
        | p :: ps => (c :: p) :: ps

end SymbolGraph.Text
