import SymbolGraph.Text.Basic

/-!
# Paths

A path keeps the spelling it was given.  What it denotes are its components: the root, named steps
and steps to the parent.  Repeated and trailing slashes and inner `.` steps do not count, a leading
`.` does, and `..` is never resolved; so `/p//a`, `/p/./a` and `/p/a/` denote the same path.

* `Path.fileName`, `Path.stem`, `Path.extension`: the last named step and its two parts around the
  last dot.  A dot at the start belongs to the stem.
* `Path.relativeTo`: the components below a root, or all of them outside it.
-/

namespace SymbolGraph

/-- A path as it was spelled. -/
structure Path where
  text : String
  deriving DecidableEq

/-- One step of a path. -/
inductive PathComponent where
  | root
  | current
  | parent
  | named (name : List Char)
  deriving DecidableEq

namespace Path

/-- The pieces between slashes. -/
def segments (path : Path) : List (List Char) := Text.pieces '/' path.text.toList

/-- The step a segment stands for, wherever it occurs. -/
def stepOf : List Char → Option PathComponent
  | []         => none
  | ['.']      => none
  | ['.', '.'] => some .parent
  | name       => some (.named name)

/-- The components of a path. -/
def components (path : Path) : List PathComponent :=
  let steps := path.segments.filterMap stepOf
  match path.segments with
  | [] :: _ :: _ => .root :: steps
  | ['.'] :: _   => .current :: steps
  | _            => steps

/-- The segments without empty and `.` segments at the end. -/
def trimmed (path : Path) : List (List Char) :=
  (path.segments.reverse.dropWhile fun s => s = [] || s = ['.']).reverse

/-- The last step, when it is a named one. -/
def fileName (path : Path) : Option (List Char) :=
  path.trimmed.getLast?.filter fun name => name ≠ ['.', '.']

/-- The name before its last dot and the part after it.  Without a dot, or with the only dot in
front, the whole name is the stem. -/
def splitName (name : List Char) : List Char × Option (List Char) :=
  match Text.splitLast '.' name with
  | some ([], _)       => (name, none)
  | some (stem, after) => (stem, some after)
  | none               => (name, none)

/-- The file name without its extension. -/
def stem (path : Path) : Option (List Char) := path.fileName.map fun name => (splitName name).1

/-- The part of the file name after its last dot. -/
def extension (path : Path) : Option (List Char) :=
  path.fileName.bind fun name => (splitName name).2

/-- The spelling up to the end of the file stem. -/
def cutAfterStem (path : Path) : Path :=
  match path.stem with
  | some stem => ⟨String.ofList (['/'].intercalate (path.trimmed.dropLast ++ [stem]))⟩
  | none      => path

/-- The path without its extension: as many characters as the extension has are cut from the end,
and what is left is cut after its stem. -/
def withoutExtension (path : Path) : Path :=
  match path.extension with
  | some ext =>
      let text := path.text.toList
      cutAfterStem ⟨String.ofList (text.take (text.length - ext.length))⟩
  | none     => path.cutAfterStem

/-- The components below `root`, or all of them when the path is not below it. -/
def relativeTo (root path : Path) : List PathComponent :=
  if root.components.isPrefixOf path.components then
    path.components.drop root.components.length
  else path.components

/-- Whether the file declares types only: something before `.d.ts`, `.d.mts` or `.d.cts`. -/
def isDeclaration (path : Path) : Bool :=
  match path.fileName with
  | none      => false
  | some name =>
      [".d.ts", ".d.mts", ".d.cts"].any fun ending =>
        ((Text.dropEnding? ending.toList name).getD []) ≠ []

/-- The language of a source file, by its extension. -/
def language (path : Path) : String :=
  match path.extension with
  | some ext =>
      if ["js", "jsx", "mjs", "cjs"].any fun known => known.toList = ext then "javascript"
      else "typescript"
  | none     => "typescript"

/-- The `file:` address of a path, with forward slashes. -/
def uri (path : Path) : String :=
  let slashed := path.text.toList.map fun c => if c = '\\' then '/' else c
  match slashed with
  | '/' :: _ => "file://" ++ String.ofList slashed
  | _        => "file:///" ++ String.ofList slashed

end Path

end SymbolGraph
