import SymbolGraph.Graph.Encoding
import SymbolGraph.Text.Bytes

/-!
# Graph — where elements go

A sink takes elements one by one.  Either it keeps them in memory, failing on the calls that a
schedule of faults names, or it writes each as a line of JSON to a medium that may have room for a
limited number of bytes.

* `Sink.emit`: a written line fails with a JSON fault when its object does not fit and with an I/O
  fault when only its newline does not; what fits has been written either way.
-/

namespace SymbolGraph

/-- Why a sink refused an element. -/
inductive SinkFault where
  | io (reason : String)
  | json (reason : String)
  deriving DecidableEq

/-- A place that takes elements. -/
inductive Sink where
  /-- Keeps elements; the call with number `n`, from zero, fails when `faults n` says so. -/
  | memory (faults : Nat → Option SinkFault) (calls : Nat) (kept : Array Element)
  /-- Writes lines while there is room. -/
  | lines (limit : Option Nat) (flushFault : Option String) (written : Array UInt8)

namespace Sink

/-- An empty memory that never fails. -/
def inMemory : Sink := .memory (fun _ => none) 0 #[]

/-- The elements kept so far. -/
def elements : Sink → List Element
  | memory _ _ kept => kept.toList
  | lines _ _ _     => []

/-- The bytes written so far. -/
def bytes : Sink → List UInt8
  | memory _ _ _       => []
  | lines _ _ written => written.toList

/-- Hand over an element. -/
def emit (element : Element) : EStateM SinkFault Sink Unit := do
  match ← get with
  | .memory faults calls kept =>
      match faults calls with
      | none       => set (Sink.memory faults (calls + 1) (kept.push element))
      | some fault =>
          set (Sink.memory faults (calls + 1) kept)
          throw fault
  | .lines limit flushFault written =>
      let body := Text.utf8 element.line
      let fits := match limit with
        | none   => body.length + 1
        | some n => n - written.size
      if fits < body.length then
        set (Sink.lines limit flushFault (written ++ body.take fits))
        throw (.json "disk full")
      else if fits = body.length then
        set (Sink.lines limit flushFault (written ++ body))
        throw (.io "disk full")
      else set (Sink.lines limit flushFault ((written ++ body).push 0x0a))

/-- Make sure that everything handed over has arrived. -/
def flush : EStateM SinkFault Sink Unit := do
  match ← get with
  | .lines _ (some reason) _ => throw (.io reason)
  | _                        => return ()

end Sink

end SymbolGraph
