import SymbolGraph.Fault
import SymbolGraph.Json.Token
import SymbolGraph.Moniker

/-!
# Options

What a run is told besides the program.  Options are read from a JSON object, or from an array of
its fields in order.  Every field may be left out; unknown fields are ignored, a known field may not
come twice, and only the package and its entry point may be `null`.
-/

namespace SymbolGraph

/-- The package a project is published as, with its entry file. -/
structure PackageInfo where
  name    : String
  version : String
  main    : Option String
  deriving DecidableEq

/-- The options of a run. -/
structure Options where
  projectRoot     : Path := ⟨"/"⟩
  hover           : Bool := true
  monikers        : Bool := true
  documentSymbols : Bool := true
  package         : Option PackageInfo := none

open Json

namespace PackageInfo

/-- A package from its name, its version and its entry file, if given. -/
def ofFields? (name version : List Token) (main : Option (List Token)) : Option PackageInfo := do
  return { name := ← Token.textOf? name, version := ← Token.textOf? version
           main := ← Token.optionOf? Token.textOf? (main.getD [.null]) }

/-- A package as an object, or as an array of two or three fields. -/
def ofTokens? (value : List Token) : Option PackageInfo :=
  match value with
  | .openObject :: _ => do
      let members ← Token.membersOf? value
      let some name ← Token.member? members "name" | none
      let some version ← Token.member? members "version" | none
      ofFields? name version (← Token.member? members "main")
  | .openArray :: _ =>
      match Token.parts value with
      | [name, version]       => ofFields? name version none
      | [name, version, main] => ofFields? name version (some main)
      | _                     => none
  | _ => none

end PackageInfo

namespace Options

/-- The options with the given fields in place of their defaults. -/
def ofFields? (projectRoot hover monikers documentSymbols package : Option (List Token)) :
    Option Options := do
  let flag (value : Option (List Token)) : Option Bool :=
    match value with
    | some tokens => Token.boolOf? tokens
    | none        => some true
  let projectRoot ← match projectRoot with
    | some tokens => (Token.textOf? tokens).map Path.mk
    | none        => some ⟨"/"⟩
  return { projectRoot, hover := ← flag hover, monikers := ← flag monikers
           documentSymbols := ← flag documentSymbols
           package := ← Token.optionOf? PackageInfo.ofTokens? (package.getD [.null]) }

/-- Options as an object, or as an array of up to five fields. -/
def ofTokens? (value : List Token) : Option Options :=
  match value with
  | .openObject :: _ => do
      let members ← Token.membersOf? value
      ofFields? (← Token.member? members "projectRoot") (← Token.member? members "emitHover")
        (← Token.member? members "emitMonikers") (← Token.member? members "emitDocumentSymbols")
        (← Token.member? members "package")
  | .openArray :: _ =>
      let fields := Token.parts value
      if fields.length ≤ 5 then
        ofFields? fields[0]? fields[1]? fields[2]? fields[3]? fields[4]?
      else none
  | _ => none

/-- The options a JSON text describes. -/
def ofText? (text : String) : Option Options := do
  let tokens ← Token.scan? text.toList
  if Token.isValue tokens then ofTokens? tokens else none

/-- The options a JSON text describes, or a fault. -/
def ofText (text : String) : Except Fault Options :=
  match ofText? text with
  | some options => .ok options
  | none         => .error (.options "malformed options")

/-- Whether the options say what no options say; the root may be spelled differently. -/
def isDefault (options : Options) : Bool :=
  options.projectRoot.components = [.root] && options.hover && options.monikers
    && options.documentSymbols && options.package.isNone

/-- The package described by the options. -/
def npmPackage (options : Options) : Option NpmPackage :=
  options.package.map fun info => .ofEntryFile info.name info.version info.main

end Options

end SymbolGraph
