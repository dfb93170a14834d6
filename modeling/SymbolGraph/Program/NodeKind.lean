/-!
# Program — kinds of syntax nodes

The kinds the index tells apart, and the three questions asked about a kind: does it open a scope,
is it a function or a block, does it make an entry in the document symbol tree.
-/

namespace SymbolGraph

/-- The kinds of syntax nodes; `other` is every kind without a part in the index. -/
inductive NodeKind where
  | sourceFile
  | identifier
  | block
  | moduleBlock
  | variableStatement
  | variableDeclarationList
  | variableDeclaration
  | parameter
  | functionDeclaration
  | functionExpression
  | arrowFunction
  | classDeclaration
  | interfaceDeclaration
  | heritageClause
  | expressionWithTypeArguments
  | constructor
  | methodDeclaration
  | methodSignature
  | propertyDeclaration
  | propertySignature
  | enumDeclaration
  | enumMember
  | moduleDeclaration
  | typeAliasDeclaration
  | typeLiteral
  | unionType
  | intersectionType
  | parenthesizedType
  | typeReference
  | importDeclaration
  | importSpecifier
  | exportDeclaration
  | exportSpecifier
  | exportAssignment
  | expressionStatement
  | callExpression
  | propertyAccessExpression
  | other
  deriving DecidableEq

namespace NodeKind

/-- Every kind under its name. -/
def named : List (String × NodeKind) :=
  [("SourceFile", sourceFile), ("Identifier", identifier), ("Block", block),
   ("ModuleBlock", moduleBlock), ("VariableStatement", variableStatement),
   ("VariableDeclarationList", variableDeclarationList),
   ("VariableDeclaration", variableDeclaration), ("Parameter", parameter),
   ("FunctionDeclaration", functionDeclaration), ("FunctionExpression", functionExpression),
   ("ArrowFunction", arrowFunction), ("ClassDeclaration", classDeclaration),
   ("InterfaceDeclaration", interfaceDeclaration), ("HeritageClause", heritageClause),
   ("ExpressionWithTypeArguments", expressionWithTypeArguments), ("Constructor", constructor),
   ("MethodDeclaration", methodDeclaration), ("MethodSignature", methodSignature),
   ("PropertyDeclaration", propertyDeclaration), ("PropertySignature", propertySignature),
   ("EnumDeclaration", enumDeclaration), ("EnumMember", enumMember),
   ("ModuleDeclaration", moduleDeclaration), ("TypeAliasDeclaration", typeAliasDeclaration),
   ("TypeLiteral", typeLiteral), ("UnionType", unionType),
   ("IntersectionType", intersectionType), ("ParenthesizedType", parenthesizedType),
   ("TypeReference", typeReference), ("ImportDeclaration", importDeclaration),
   ("ImportSpecifier", importSpecifier), ("ExportDeclaration", exportDeclaration),
   ("ExportSpecifier", exportSpecifier), ("ExportAssignment", exportAssignment),
   ("ExpressionStatement", expressionStatement), ("CallExpression", callExpression),
   ("PropertyAccessExpression", propertyAccessExpression), ("Other", other)]

/-- The kind of a given name. -/
def ofName? (name : String) : Option NodeKind :=
  (named.find? fun entry => entry.1 = name).map Prod.snd

/-- The name of a kind. -/
def name (kind : NodeKind) : String :=
  ((named.find? fun entry => entry.2 = kind).map Prod.fst).getD "Other"

/-- Functions and blocks; what is declared below one is never global. -/
def isFunctionOrBlock : NodeKind → Bool
  | block | functionDeclaration | functionExpression | arrowFunction | constructor
  | methodDeclaration => true
  | _ => false

/-- Nodes that open a scope for local symbols. -/
def isScope : NodeKind → Bool
  | sourceFile | moduleBlock => true
  | kind => kind.isFunctionOrBlock

/-- Declarations that make an entry in the document symbol tree. -/
def isDocumentSymbol : NodeKind → Bool
  | classDeclaration | interfaceDeclaration | functionDeclaration | methodDeclaration
  | methodSignature | propertyDeclaration | propertySignature | variableDeclaration
  | enumDeclaration | enumMember | moduleDeclaration | typeAliasDeclaration => true
  | _ => false

end NodeKind

end SymbolGraph
