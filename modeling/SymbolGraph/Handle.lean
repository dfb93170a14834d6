import SymbolGraph.Text.Basic

/-!
# Handles

A checked program is addressed by numbered handles: files, syntax nodes, symbols and types, each
numbered from zero in order of creation.  A handle need not denote anything; every question about
one that does not has a default answer.
-/

namespace SymbolGraph

/-- A source file. -/
structure FileId where
  index : Nat
  deriving DecidableEq

/-- A syntax node; nodes are numbered across the whole program. -/
structure NodeId where
  index : Nat
  deriving DecidableEq

/-- A semantic symbol.  Two symbols may share one `SymbolKey`. -/
structure SymbolRef where
  index : Nat
  deriving DecidableEq

/-- A type. -/
structure TypeRef where
  index : Nat
  deriving DecidableEq

/-- The file of a node that does not exist. -/
def FileId.missing : FileId := ⟨4294967295⟩

/-- The root of a file that does not exist. -/
def NodeId.missing : NodeId := ⟨4294967295⟩

/-! ### Written forms -/

/-- A handle as a reader sees it. -/
def FileId.shown (file : FileId) : String := "file#" ++ Text.decimal file.index

@[inherit_doc FileId.shown]
def NodeId.shown (node : NodeId) : String := "node#" ++ Text.decimal node.index

@[inherit_doc FileId.shown]
def SymbolRef.shown (symbol : SymbolRef) : String := "symbol#" ++ Text.decimal symbol.index

@[inherit_doc FileId.shown]
def TypeRef.shown (type : TypeRef) : String := "type#" ++ Text.decimal type.index

/-- A handle with the name of its sort, for messages about malfunctions. -/
def FileId.inspected (file : FileId) : String := "FileId(" ++ Text.decimal file.index ++ ")"

@[inherit_doc FileId.inspected]
def NodeId.inspected (node : NodeId) : String := "NodeId(" ++ Text.decimal node.index ++ ")"

@[inherit_doc FileId.inspected]
def SymbolRef.inspected (symbol : SymbolRef) : String :=
  "SymbolRef(" ++ Text.decimal symbol.index ++ ")"

@[inherit_doc FileId.inspected]
def TypeRef.inspected (type : TypeRef) : String := "TypeRef(" ++ Text.decimal type.index ++ ")"

end SymbolGraph
