import SymbolGraph.Proofs.Run.Calls
import SymbolGraph.Proofs.Run.Guarding
import SymbolGraph.Proofs.Store.Forwarding

/-!
# Proofs — Run — forwarding after any calls

Aliases, heritage and unions may run in circles.  A record is only stored after those that it passes
on to, however, so that none of these circles comes to stand in the store: whatever the calls are and
whichever elements the sink refuses, forwarding comes to an end.

* `Run.after_forwarding`: forwarding comes to an end after any calls.
* `Run.tangled_forwarding`: classes that extend each other, aliases of aliases, and a refusal.
-/

namespace SymbolGraph.Run

open SymbolGraph.Action

variable {w : Setting}

/-- **After any calls forwarding comes to an end**, for any program and whichever elements the sink
refuses: each record passes on to records with smaller numbers, so that recording a reference or a
definition under any record ends by itself, and no `next` edges between result sets run in a
circle. -/
theorem after_forwarding (faults : Nat → Option SinkFault) {first : Session} {graph : Graph}
    (hstart : start w (Graph.ofSink (.memory faults 0 #[])) = .ok first graph)
    (calls : List Session.Call) : (first.after w calls).store.Forwarding w :=
  (Session.after_sound (start_ensures.of_ok hstart).1 calls).store.forwarding

/-- The steps for two classes that extend each other, and for four aliases: one of a method of the
first class, one of that, and two of each other. -/
def tangledSteps : List Program.Step := mutualSteps ++
  [.file ⟨"/p/b.ts"⟩ "C D E F",
   .declaration ⟨13⟩ .importSpecifier "C" "C", .declaration ⟨13⟩ .importSpecifier "D" "D",
   .declaration ⟨13⟩ .importSpecifier "E" "E", .declaration ⟨13⟩ .importSpecifier "F" "F",
   .symbol "C" .ofAlias, .symbol "D" .ofAlias, .symbol "E" .ofAlias, .symbol "F" .ofAlias,
   .aliased ⟨4⟩ ⟨2⟩, .aliased ⟨5⟩ ⟨4⟩, .aliased ⟨6⟩ ⟨7⟩, .aliased ⟨7⟩ ⟨6⟩,
   .declare ⟨4⟩ ⟨14⟩, .declare ⟨5⟩ ⟨16⟩, .declare ⟨6⟩ ⟨18⟩, .declare ⟨7⟩ ⟨20⟩]

def tangled : Setting := plain tangledSteps

/-- Looking for a record in vain twice, once because of a circle and once because of a refusal; then
looking for it again, and walking the file of the classes. -/
def tangledCalls : List Session.Call :=
  [.resolve ⟨6⟩ none, .resolve ⟨5⟩ none, .resolve ⟨5⟩ none, .visitFile ⟨0⟩, .projectProcessed]

/-- A sink that refuses its fifth element. -/
def refusesFifth (n : Nat) : Option SinkFault := if n = 4 then some (.io "refused") else none

/-- One method is taken to override the other, and not the other way round; the alias of an alias
leads on to the method. -/
theorem tangled_forwarding : ∃ first graph,
    start tangled (Graph.ofSink (.memory refusesFifth 0 #[])) = .ok first graph ∧
    ((first.after tangled tangledCalls).store.records.toList.filterMap fun r => r.kind.passesTo)
      = [[⟨0⟩], [⟨1⟩], [⟨2⟩]] ∧
    (first.after tangled tangledCalls).store.Forwarding tangled := by
  have hrun : (outcome? (start tangled) (Graph.ofSink (.memory refusesFifth 0 #[]))).any
      (fun first => ((first.1.after tangled tangledCalls).store.records.toList.filterMap
        fun r => r.kind.passesTo) = [[⟨0⟩], [⟨1⟩], [⟨2⟩]]) = true := by
    decide +kernel
  obtain ⟨⟨first, graph⟩, hfirst, hpasses⟩ := (Option.any_eq_true _ _).mp hrun
  have hstart := outcome?_eq_some.mp hfirst
  exact ⟨first, graph, hstart, of_decide_eq_true hpasses,
    after_forwarding refusesFifth hstart tangledCalls⟩

end SymbolGraph.Run
