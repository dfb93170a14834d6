import SymbolGraph.Fault
import SymbolGraph.Table

/-!
# Record — what is collected for one symbol

A record collects the ranges of one symbol, in one *partition* per file.  Its kind says where they
go: an alias passes them on to its target, an overriding method to the methods it overrides, and a
property shared by the arms of a union to the property of each arm.

* `RecordKind.acceptsDefinitions`: whether definitions are collected at all.
* `Record.isOpen`: whether the record may be written to.  Once closed, the kinds that accept
  definitions refuse and the others silently take no more.
-/

namespace SymbolGraph

/-- The number of a record. -/
structure RecordId where
  index : Nat
  deriving DecidableEq

/-- A record's number with the name of its sort. -/
def RecordId.inspected (record : RecordId) : String :=
  "SymbolDataId(" ++ Text.decimal record.index ++ ")"

/-- A record is opened once and closed once. -/
inductive LifeCycle where
  | unopened
  | opened
  | closed
  deriving DecidableEq

/-- The role of a range for the symbol it is recorded under. -/
inductive ReferenceRole where
  | declarations
  | definitions
  | references
  deriving DecidableEq

namespace ReferenceRole

/-- The property under which a role is listed. -/
def property : ReferenceRole → ItemProperty
  | declarations => .declarations
  | definitions  => .definitions
  | references   => .references

/-- The name of a role. -/
def inspected : ReferenceRole → String
  | declarations => "Declarations"
  | definitions  => "Definitions"
  | references   => "References"

end ReferenceRole

/-- What can be recorded as a reference: a range, or the whole reference result of another
symbol. -/
inductive Reference where
  | range (id : ElementId)
  | result (id : ElementId)
  deriving DecidableEq

/-- The coordinates of a recorded definition. -/
structure DefinitionInfo where
  file  : FileId
  range : TextRange
  deriving DecidableEq

/-- What a record passes on, and to which records. -/
inductive RecordKind where
  | standard
  /-- An import or re-export of another symbol, under another name when it renames. -/
  | aliased (target : RecordId) (renames : Bool)
  /-- A method and the methods it overrides. -/
  | method (bases : List RecordId) (anchor : FileId)
  /-- A property shared by the arms of a union or intersection. -/
  | composite (elements : List RecordId) (anchor : FileId)
  /-- A symbol of the checker's own making, without a place of definition. -/
  | transient
  deriving DecidableEq

namespace RecordKind

/-- The name of a kind. -/
def name : RecordKind → String
  | standard      => "standard"
  | aliased _ _   => "aliased"
  | method _ _    => "method"
  | composite _ _ => "union-or-intersection"
  | transient     => "transient"

/-- Whether definitions are collected. -/
def acceptsDefinitions : RecordKind → Bool
  | composite _ _ | transient => false
  | _                         => true

/-- Whether writing after the end is a fault. -/
def isStrict (kind : RecordKind) : Bool := kind.acceptsDefinitions

end RecordKind

/-- Something that is cleared at its end and stays known as cleared. -/
inductive Slot (α : Type) where
  | live (value : α)
  | cleared

/-- The value of a slot that is not cleared. -/
def Slot.value? {α : Type} : Slot α → Option α
  | live value => some value
  | cleared    => none

/-- The ranges of one symbol in one document, by role. -/
structure Partition where
  document         : ElementId
  definitionRanges : List ElementId := []
  declarations     : List ElementId := []
  definitions      : List ElementId := []
  references       : List ElementId := []
  referenceResults : List ElementId := []

namespace Partition

/-- The partition with one more definition, which may count as a reference too. -/
def addDefinition (partition : Partition) (range : ElementId) (asReference : Bool) : Partition :=
  let partition := { partition with definitionRanges := partition.definitionRanges ++ [range] }
  if asReference then { partition with definitions := partition.definitions ++ [range] }
  else partition

/-- The partition with one more reference. -/
def addReference (partition : Partition) (role : ReferenceRole) : Reference → Partition
  | .result id => { partition with referenceResults := partition.referenceResults ++ [id] }
  | .range id  =>
      match role with
      | .declarations => { partition with declarations := partition.declarations ++ [id] }
      | .definitions  => { partition with definitions := partition.definitions ++ [id] }
      | .references   => { partition with references := partition.references ++ [id] }

/-- The lists of references in the order in which they are written. -/
def listed (partition : Partition) : List (List ElementId × ItemProperty) :=
  [(partition.declarations, .declarations), (partition.definitions, .definitions),
   (partition.references, .references), (partition.referenceResults, .referenceResults)]

/-- Whether anything is listed as a reference. -/
def hasReferences (partition : Partition) : Bool :=
  partition.listed.any fun entry => !entry.1.isEmpty

end Partition

/-- Everything collected for one symbol. -/
structure Record where
  key              : SymbolKey
  kind             : RecordKind
  /-- The node whose end closes the record, for a symbol that is local to it. -/
  scope            : Option NodeId
  state            : LifeCycle := .unopened
  resultSet        : Option VertexRef := none
  definitionResult : Option VertexRef := none
  referenceResult  : Option VertexRef := none
  definitionInfos  : List DefinitionInfo := []
  partitions       : Table FileId (Slot Partition) := ∅

namespace Record

/-- The result set of a record that was begun. -/
def begunResultSet (record : Record) : Except Fault VertexRef :=
  match record.resultSet with
  | some vertex => .ok vertex
  | none        => .error (.recordClosed record.key)

/-- Whether the record may be written to; `false` when writing has no effect. -/
def isOpen (record : Record) : Except Fault Bool :=
  match record.state with
  | .opened   => .ok true
  | .closed   => if record.kind.isStrict then .error (.recordClosed record.key) else .ok false
  | .unopened => .error (.recordClosed record.key)

/-- Whether a definition with these coordinates was recorded. -/
def hasInfo (record : Record) (info : DefinitionInfo) : Bool := info ∈ record.definitionInfos

/-- The record with the coordinates of a definition, if it accepts definitions. -/
def addInfo (record : Record) (info : DefinitionInfo) : Record :=
  if record.kind.acceptsDefinitions ∧ info ∉ record.definitionInfos then
    { record with definitionInfos := record.definitionInfos ++ [info] }
  else record

end Record

end SymbolGraph
