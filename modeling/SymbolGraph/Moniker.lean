import SymbolGraph.Path

/-!
# Monikers

The identifier of an exported symbol: the path of its module below the project root, a colon and its
export path; symbols of libraries and scripts go by their export path alone.  A *linker* turns such
an identifier into one that holds across packages.

* `NpmPackage.linker`: identifiers of modules go into the package; the module path of the package's
  entry point is left out.
-/

namespace SymbolGraph

/-- Where the declarations of a symbol are. -/
inductive LocationKind where
  /-- Files of the default library. -/
  | library
  /-- Files that are modules. -/
  | module
  /-- Scripts and other files. -/
  | global
  deriving DecidableEq

/-- The written form of a location kind. -/
def LocationKind.text : LocationKind → String
  | library => "library"
  | module  => "module"
  | global  => "global"

/-- A module path without the first of the source extensions that it ends in. -/
def dropSourceExtension (path : List Char) : List Char :=
  ([".d.ts", ".ts", ".tsx", ".js", ".jsx"].findSome? fun ext =>
    Text.dropEnding? ext.toList path).getD path

/-- The name of a step in a module path. -/
def PathComponent.moduleStep : PathComponent → Option (List Char)
  | named name => some name
  | parent     => some ['.', '.']
  | _          => none

/-- The path of a module below `root`, without its extension. -/
def Path.modulePath (root path : Path) : String :=
  String.ofList (dropSourceExtension
    (['/'].intercalate ((root.relativeTo path).filterMap PathComponent.moduleStep)))

/-- The identifier of a symbol by where it is and how it is exported. -/
def symbolIdentifier (kind : LocationKind) (modulePath exportPath : String) : String :=
  match kind with
  | .module            => modulePath ++ ":" ++ exportPath
  | .global | .library => exportPath

/-- A way to say the identifier of a symbol in another naming scheme, where it has one. -/
structure Linker where
  scheme : String
  link   : String → Option String

/-- A published package and the module path of its entry point. -/
structure NpmPackage where
  name    : String
  version : String
  main    : Option String

namespace NpmPackage

/-- The text after all leading `./`. -/
def dropHere : List Char → List Char
  | '.' :: '/' :: rest => dropHere rest
  | text               => text

/-- The package whose entry point is given as a file name. -/
def ofEntryFile (name version : String) (entry : Option String) : NpmPackage :=
  { name, version
    main := entry.map fun file => String.ofList (dropSourceExtension (dropHere file.toList)) }

/-- The identifier of a symbol within the package; only symbols of modules have one. -/
def link (package : NpmPackage) (identifier : String) : Option String :=
  (Text.splitOnce ':' identifier.toList).map fun (modulePath, exportPath) =>
    let exportPath := String.ofList exportPath
    if package.main = some (String.ofList modulePath) then package.name ++ "::" ++ exportPath
    else package.name ++ ":" ++ String.ofList modulePath ++ ":" ++ exportPath

/-- The linker of a package. -/
def linker (package : NpmPackage) : Linker := { scheme := "npm", link := package.link }

end NpmPackage

end SymbolGraph
