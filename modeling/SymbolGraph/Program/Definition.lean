import SymbolGraph.Graph.Element
import SymbolGraph.Program.Basic

/-!
# Program — how definitions are shown

The sort an editor shows for a declaration, and the range a definition covers as a whole.
-/

namespace SymbolGraph

/-- The sort of a definition, by its declaring node. -/
def NodeKind.definitionKind : NodeKind → SymbolKind
  | sourceFile                          => .file
  | moduleDeclaration                   => .ofNamespace
  | classDeclaration                    => .ofClass
  | interfaceDeclaration                => .interface
  | methodDeclaration | methodSignature => .method
  | constructor                         => .constructor
  | enumDeclaration                     => .enum
  | enumMember                          => .enumMember
  | functionDeclaration                 => .function
  | variableDeclaration | parameter     => .ofVariable
  | _                                   => .property

/-- The range of a whole definition.  A variable declared alone in its list takes the list, so
`const x = 10` rather than `x = 10`. -/
def Program.fullRange (p : Program) (declaration : NodeId) : TextRange :=
  match p.kind declaration, p.parent declaration with
  | .variableDeclaration, some list =>
      if p.kind list = .variableDeclarationList ∧ (p.children list).length = 1 then p.range list
      else p.range declaration
  | _, _ => p.range declaration

end SymbolGraph
