import SymbolGraph.Handle
import SymbolGraph.Path

/-!
# Program — source files

The source files of a program in order of registration.  A file is known by its path: registering
another spelling of a registered path replaces the text and keeps the handle, the first spelling and
the origin.
-/

namespace SymbolGraph

/-- Where a source file was loaded from. -/
inductive FileOrigin where
  | project
  | defaultLibrary
  | externalLibrary
  deriving DecidableEq

/-- A registered source file. -/
structure SourceFile where
  path   : Path
  text   : String
  origin : FileOrigin

/-- The registered source files; the handle of a file is its place. -/
structure FileSet where
  files : Array SourceFile

namespace FileSet

/-- No file. -/
def empty : FileSet := ⟨#[]⟩

/-- The number of files. -/
def size (set : FileSet) : Nat := set.files.size

/-- The handles in order of registration. -/
def handles (set : FileSet) : List FileId := (List.range set.size).map FileId.mk

/-- The file of a handle. -/
def get? (set : FileSet) (file : FileId) : Option SourceFile := set.files[file.index]?

/-- The handle of a path, in any spelling. -/
def lookup (set : FileSet) (path : Path) : Option FileId :=
  (set.files.findIdx? fun file => file.path.components = path.components).map FileId.mk

/-- The set with `text` at `path`, and the handle of the file. -/
def add (set : FileSet) (path : Path) (text : String) : FileSet × FileId :=
  match set.lookup path with
  | some file => (⟨set.files.modify file.index fun known => { known with text }⟩, file)
  | none      => (⟨set.files.push { path, text, origin := .project }⟩, ⟨set.size⟩)

/-- The set with another origin for a file; a missing file changes nothing. -/
def setOrigin (set : FileSet) (file : FileId) (origin : FileOrigin) : FileSet :=
  ⟨set.files.modify file.index fun known => { known with origin }⟩

def path (set : FileSet) (file : FileId) : Option Path := (set.get? file).map SourceFile.path
def text (set : FileSet) (file : FileId) : Option String := (set.get? file).map SourceFile.text
def origin (set : FileSet) (file : FileId) : Option FileOrigin :=
  (set.get? file).map SourceFile.origin

/-- Whether the file declares types only. -/
def isDeclaration (set : FileSet) (file : FileId) : Bool :=
  (set.path file).any Path.isDeclaration

end FileSet

end SymbolGraph
