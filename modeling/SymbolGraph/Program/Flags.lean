/-!
# Program — symbol flags

The semantic categories of a symbol as a word of bits, one category per bit.  Bits without a
category are kept.
-/

namespace SymbolGraph

/-- The categories of a symbol. -/
structure SymbolFlags where
  bits : UInt32
  deriving DecidableEq

namespace SymbolFlags

/-- The category of bit `n` alone. -/
def bit (n : UInt32) : SymbolFlags := ⟨1 <<< n⟩

/-- The flags of either side. -/
def union (a b : SymbolFlags) : SymbolFlags := ⟨a.bits ||| b.bits⟩

/-- Whether every category of `other` is set. -/
def has (flags other : SymbolFlags) : Bool := flags.bits &&& other.bits = other.bits

/-- Whether some category of `other` is set. -/
def meets (flags other : SymbolFlags) : Bool := flags.bits &&& other.bits ≠ 0

/-- No category. -/
def none : SymbolFlags := ⟨0⟩

def functionScopedVariable : SymbolFlags := bit 0
def blockScopedVariable : SymbolFlags := bit 1
def property : SymbolFlags := bit 2
def enumMember : SymbolFlags := bit 3
def function : SymbolFlags := bit 4
def ofClass : SymbolFlags := bit 5
def ofInterface : SymbolFlags := bit 6
def enum : SymbolFlags := bit 7
def valueModule : SymbolFlags := bit 8
def namespaceModule : SymbolFlags := bit 9
def typeLiteral : SymbolFlags := bit 10
def method : SymbolFlags := bit 11
def constructor : SymbolFlags := bit 12
def typeParameter : SymbolFlags := bit 13
def typeAlias : SymbolFlags := bit 14
def ofAlias : SymbolFlags := bit 15

/-- Made by the checker itself: shared properties of unions, mapped properties and the like. -/
def transient : SymbolFlags := bit 16

/-- Both sorts of variable. -/
def anyVariable : SymbolFlags := functionScopedVariable.union blockScopedVariable

def isClass (flags : SymbolFlags) : Bool := flags.has ofClass
def isInterface (flags : SymbolFlags) : Bool := flags.has ofInterface
def isTypeLiteral (flags : SymbolFlags) : Bool := flags.has typeLiteral
def isMethod (flags : SymbolFlags) : Bool := flags.has method
def isAlias (flags : SymbolFlags) : Bool := flags.has ofAlias
def isValueModule (flags : SymbolFlags) : Bool := flags.has valueModule
def isTransient (flags : SymbolFlags) : Bool := flags.has transient
def isTypeAlias (flags : SymbolFlags) : Bool := flags.has typeAlias

/-- Transient and nothing else. -/
def isTransientOnly (flags : SymbolFlags) : Bool := flags = transient

/-- Whether the symbol owns its members: a class, an interface or a type literal. -/
def ownsMembers (flags : SymbolFlags) : Bool :=
  flags.isClass || flags.isInterface || flags.isTypeLiteral

end SymbolFlags

end SymbolGraph
