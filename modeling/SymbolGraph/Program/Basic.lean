import SymbolGraph.Program.Files
import SymbolGraph.Program.Flags
import SymbolGraph.Program.NodeKind
import SymbolGraph.Text.Bytes
import SymbolGraph.Text.Position

/-!
# Program — the checked program

A program holds source files, syntax nodes, symbols and types, as a type checker left them.  The
index only asks questions about it.  Handles are places in the arrays; a handle that is out of
bounds gets the answer of an entity without any property.
-/

namespace SymbolGraph

/-- The hover text of a node: its signature and its documentation. -/
structure QuickInfo where
  display       : String
  documentation : String

/-- Why there is no hover text for a node. -/
inductive QuickInfoFault where
  | unavailable (node : NodeId) (reason : String)
  | unknownNode (node : NodeId)

/-- The message of a hover failure. -/
def QuickInfoFault.message : QuickInfoFault → String
  | unavailable node reason =>
      "quick info unavailable for node " ++ node.inspected ++ ": " ++ reason
  | unknownNode node        => "unknown node " ++ node.inspected

/-- What a file is besides its text: its root node and, for a module, its symbol. -/
structure FileInfo where
  root   : NodeId
  symbol : Option SymbolRef

/-- A syntax node. -/
structure SyntaxNode where
  kind      : NodeKind
  file      : FileId
  range     : TextRange
  parent    : Option NodeId
  children  : List NodeId := []
  name      : Option NodeId := none
  symbol    : Option SymbolRef := none
  type      : Option TypeRef := none
  quickInfo : Option (Except String QuickInfo) := none

/-- How far the checker knows a symbol without declarations. -/
inductive Standing where
  | ordinary
  | unknown
  | undefined
  deriving DecidableEq

/-- A symbol. -/
structure SymbolInfo where
  name         : String
  flags        : SymbolFlags
  declarations : List NodeId := []
  parent       : Option SymbolRef := none
  exported     : List SymbolRef := []
  members      : List SymbolRef := []
  aliased      : Option SymbolRef := none
  declaredType : Option TypeRef := none
  standing     : Standing := .ordinary

/-- A type.  Only unions and intersections have constituents. -/
structure TypeInfo where
  symbol       : Option SymbolRef := none
  bases        : List TypeRef := []
  constituents : Option (List TypeRef) := none
  properties   : List SymbolRef := []

/-- A checked program. -/
structure Program where
  files     : FileSet
  fileInfos : Array FileInfo
  nodes     : Array SyntaxNode
  symbols   : Array SymbolInfo
  types     : Array TypeInfo

namespace Program

def node? (p : Program) (node : NodeId) : Option SyntaxNode := p.nodes[node.index]?
def symbol? (p : Program) (symbol : SymbolRef) : Option SymbolInfo := p.symbols[symbol.index]?
def type? (p : Program) (type : TypeRef) : Option TypeInfo := p.types[type.index]?

/-! ### Files -/

/-- The source files in order of registration. -/
def sourceFiles (p : Program) : List FileId := (List.range p.fileInfos.size).map FileId.mk

def fileId? (p : Program) (path : Path) : Option FileId := p.files.lookup path
def filePath (p : Program) (file : FileId) : Option Path := p.files.path file
def fileText (p : Program) (file : FileId) : Option String := p.files.text file
def isDeclarationFile (p : Program) (file : FileId) : Bool := p.files.isDeclaration file

def isDefaultLibrary (p : Program) (file : FileId) : Bool :=
  p.files.origin file = some .defaultLibrary

def isExternalLibrary (p : Program) (file : FileId) : Bool :=
  p.files.origin file = some .externalLibrary

/-- The root node of a file. -/
def root (p : Program) (file : FileId) : NodeId :=
  (p.fileInfos[file.index]?.map FileInfo.root).getD NodeId.missing

/-- The symbol of a file, present exactly when the file is a module. -/
def fileSymbol (p : Program) (file : FileId) : Option SymbolRef :=
  p.fileInfos[file.index]?.bind FileInfo.symbol

/-- The path of a file, or its handle when it has none. -/
def shownFile (p : Program) (file : FileId) : String :=
  ((p.filePath file).map Path.text).getD file.shown

/-! ### Nodes -/

def kind (p : Program) (node : NodeId) : NodeKind :=
  ((p.node? node).map SyntaxNode.kind).getD .other

def fileOf (p : Program) (node : NodeId) : FileId :=
  ((p.node? node).map SyntaxNode.file).getD FileId.missing

def range (p : Program) (node : NodeId) : TextRange :=
  ((p.node? node).map SyntaxNode.range).getD TextRange.origin

def parent (p : Program) (node : NodeId) : Option NodeId := (p.node? node).bind SyntaxNode.parent

/-- The children of a node in source order. -/
def children (p : Program) (node : NodeId) : List NodeId :=
  ((p.node? node).map SyntaxNode.children).getD []

/-- The node that names a declaration. -/
def nameOf (p : Program) (node : NodeId) : Option NodeId := (p.node? node).bind SyntaxNode.name

/-- The symbol a node denotes. -/
def symbolAt (p : Program) (node : NodeId) : Option SymbolRef :=
  (p.node? node).bind SyntaxNode.symbol

def typeAt (p : Program) (node : NodeId) : Option TypeRef := (p.node? node).bind SyntaxNode.type

/-- The source text of a node; empty when its range does not fall between characters. -/
def textOf (p : Program) (node : NodeId) : String :=
  match p.fileText (p.fileOf node) with
  | none      => ""
  | some text =>
      let range := p.range node
      ((Text.slice range.start range.stop text.toList).map String.ofList).getD ""

/-- The hover text of a node. -/
def quickInfo (p : Program) (node : NodeId) : Except QuickInfoFault (Option QuickInfo) :=
  match p.node? node with
  | none       => .error (.unknownNode node)
  | some known =>
      match known.quickInfo with
      | none                 => .ok none
      | some (.ok info)      => .ok (some info)
      | some (.error reason) => .error (.unavailable node reason)

/-- The ancestors of a node, innermost first, up to `fuel` of them. -/
def ancestorsWithin (p : Program) : (fuel : Nat) → NodeId → List NodeId
  | 0,        _    => []
  | fuel + 1, node =>
      match p.parent node with
      | none        => []
      | some parent => parent :: p.ancestorsWithin fuel parent

/-- The strict ancestors of a node, innermost first.  A chain of parents that ends is no longer
than there are nodes. -/
def ancestors (p : Program) (node : NodeId) : List NodeId := p.ancestorsWithin p.nodes.size node

/-! ### Symbols -/

def symbolName (p : Program) (symbol : SymbolRef) : String :=
  ((p.symbol? symbol).map SymbolInfo.name).getD ""

def symbolFlags (p : Program) (symbol : SymbolRef) : SymbolFlags :=
  ((p.symbol? symbol).map SymbolInfo.flags).getD SymbolFlags.none

def declarations (p : Program) (symbol : SymbolRef) : List NodeId :=
  ((p.symbol? symbol).map SymbolInfo.declarations).getD []

def parentSymbol (p : Program) (symbol : SymbolRef) : Option SymbolRef :=
  (p.symbol? symbol).bind SymbolInfo.parent

/-- The symbols a module or namespace exports. -/
def exportsOf (p : Program) (symbol : SymbolRef) : List SymbolRef :=
  ((p.symbol? symbol).map SymbolInfo.exported).getD []

/-- The members of a class, interface or type literal. -/
def membersOf (p : Program) (symbol : SymbolRef) : List SymbolRef :=
  ((p.symbol? symbol).map SymbolInfo.members).getD []

/-- The first member of a given name. -/
def memberNamed (p : Program) (symbol : SymbolRef) (name : String) : Option SymbolRef :=
  (p.membersOf symbol).find? fun member => p.symbolName member = name

/-- The symbol an import or re-export stands for. -/
def aliasedSymbol (p : Program) (symbol : SymbolRef) : Option SymbolRef :=
  (p.symbol? symbol).bind SymbolInfo.aliased

def isUnknown (p : Program) (symbol : SymbolRef) : Bool :=
  (p.symbol? symbol).any fun known => known.standing = .unknown

def isUndefined (p : Program) (symbol : SymbolRef) : Bool :=
  (p.symbol? symbol).any fun known => known.standing = .undefined

def declaredType (p : Program) (symbol : SymbolRef) : Option TypeRef :=
  (p.symbol? symbol).bind SymbolInfo.declaredType

/-- The symbol behind an alias, and any other symbol itself. -/
def behindAlias (p : Program) (symbol : SymbolRef) : SymbolRef :=
  if (p.symbolFlags symbol).isAlias then (p.aliasedSymbol symbol).getD symbol else symbol

/-! ### Types -/

def baseTypes (p : Program) (type : TypeRef) : List TypeRef :=
  ((p.type? type).map TypeInfo.bases).getD []

def typeSymbol (p : Program) (type : TypeRef) : Option SymbolRef :=
  (p.type? type).bind TypeInfo.symbol

/-- The constituents of a union or intersection. -/
def constituents (p : Program) (type : TypeRef) : Option (List TypeRef) :=
  (p.type? type).bind TypeInfo.constituents

/-- The property of a type under a name: its own properties come before the members of the symbol
that owns the type. -/
def propertyOf (p : Program) (type : TypeRef) (name : String) : Option SymbolRef :=
  (p.type? type).bind fun known =>
    (known.properties ++ ((known.symbol.map p.membersOf).getD [])).find? fun property =>
      (p.symbol? property).any fun found => found.name = name

end Program

end SymbolGraph
