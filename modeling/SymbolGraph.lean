import SymbolGraph.Action
import SymbolGraph.Document
import SymbolGraph.Fault
import SymbolGraph.Graph.Element
import SymbolGraph.Graph.Emission
import SymbolGraph.Graph.Encoding
import SymbolGraph.Graph.Query
import SymbolGraph.Graph.Sink
import SymbolGraph.Handle
import SymbolGraph.Json.Token
import SymbolGraph.Json.Value
import SymbolGraph.Moniker
import SymbolGraph.Options
import SymbolGraph.Path
import SymbolGraph.Program.Basic
import SymbolGraph.Program.Build
import SymbolGraph.Program.Definition
import SymbolGraph.Program.Files
import SymbolGraph.Program.Flags
import SymbolGraph.Program.NodeKind
import SymbolGraph.Proofs.Action
import SymbolGraph.Proofs.Agenda
import SymbolGraph.Proofs.Counterparts
import SymbolGraph.Proofs.Discipline
import SymbolGraph.Proofs.Graph.Chains
import SymbolGraph.Proofs.Graph.Closure
import SymbolGraph.Proofs.Graph.Encoding
import SymbolGraph.Proofs.Graph.Reading
import SymbolGraph.Proofs.Graph.Searching
import SymbolGraph.Proofs.Graph.Tallies
import SymbolGraph.Proofs.Graph.Typing
import SymbolGraph.Proofs.Interruption
import SymbolGraph.Proofs.Json.Delimiting
import SymbolGraph.Proofs.Program.Building
import SymbolGraph.Proofs.Program.Exports
import SymbolGraph.Proofs.Program.Outline
import SymbolGraph.Proofs.Program.Postorder
import SymbolGraph.Proofs.Program.Tree
import SymbolGraph.Proofs.Record.Conserving
import SymbolGraph.Proofs.Record.Counterparts
import SymbolGraph.Proofs.Record.Draining
import SymbolGraph.Proofs.Record.Entries
import SymbolGraph.Proofs.Record.Labelling
import SymbolGraph.Proofs.Record.Ledger
import SymbolGraph.Proofs.Record.Listing
import SymbolGraph.Proofs.Record.Routes
import SymbolGraph.Proofs.Record.Scribing
import SymbolGraph.Proofs.Run.Asking
import SymbolGraph.Proofs.Run.Barrier
import SymbolGraph.Proofs.Run.Calls
import SymbolGraph.Proofs.Run.Coherence
import SymbolGraph.Proofs.Run.Conservation
import SymbolGraph.Proofs.Run.Containment
import SymbolGraph.Proofs.Run.Definitions
import SymbolGraph.Proofs.Run.Discovery
import SymbolGraph.Proofs.Run.Ending
import SymbolGraph.Proofs.Run.Filtering
import SymbolGraph.Proofs.Run.Finality
import SymbolGraph.Proofs.Run.Flushing
import SymbolGraph.Proofs.Run.Following
import SymbolGraph.Proofs.Run.Forwarding
import SymbolGraph.Proofs.Run.Guarding
import SymbolGraph.Proofs.Run.Hoisting
import SymbolGraph.Proofs.Run.Identities
import SymbolGraph.Proofs.Run.Interrupted
import SymbolGraph.Proofs.Run.Occurrences
import SymbolGraph.Proofs.Run.Outlining
import SymbolGraph.Proofs.Run.Outliving
import SymbolGraph.Proofs.Run.Reasons
import SymbolGraph.Proofs.Run.Reckoning
import SymbolGraph.Proofs.Run.References
import SymbolGraph.Proofs.Run.Repetitions
import SymbolGraph.Proofs.Run.Rounds
import SymbolGraph.Proofs.Run.Truncated
import SymbolGraph.Proofs.Run.Undoing
import SymbolGraph.Proofs.Run.Walked
import SymbolGraph.Proofs.Session.Calm
import SymbolGraph.Proofs.Session.Counterparts
import SymbolGraph.Proofs.Session.Descending
import SymbolGraph.Proofs.Session.Explaining
import SymbolGraph.Proofs.Session.Finding
import SymbolGraph.Proofs.Session.Gathering
import SymbolGraph.Proofs.Session.Identity
import SymbolGraph.Proofs.Session.Keeping
import SymbolGraph.Proofs.Session.Moving
import SymbolGraph.Proofs.Session.Outlining
import SymbolGraph.Proofs.Session.Plan
import SymbolGraph.Proofs.Session.Releasing
import SymbolGraph.Proofs.Session.Resolving
import SymbolGraph.Proofs.Session.Rounds
import SymbolGraph.Proofs.Session.Skirting
import SymbolGraph.Proofs.Session.Standing
import SymbolGraph.Proofs.Session.Tallying
import SymbolGraph.Proofs.Session.Turning
import SymbolGraph.Proofs.Session.Walking
import SymbolGraph.Proofs.Store.Balance
import SymbolGraph.Proofs.Store.Books
import SymbolGraph.Proofs.Store.Bracing
import SymbolGraph.Proofs.Store.Changes
import SymbolGraph.Proofs.Store.Closing
import SymbolGraph.Proofs.Store.Collecting
import SymbolGraph.Proofs.Store.Conserving
import SymbolGraph.Proofs.Store.Counterparts
import SymbolGraph.Proofs.Store.Departing
import SymbolGraph.Proofs.Store.Documents
import SymbolGraph.Proofs.Store.Editing
import SymbolGraph.Proofs.Store.Forwarding
import SymbolGraph.Proofs.Store.Interrupted
import SymbolGraph.Proofs.Store.Keepers
import SymbolGraph.Proofs.Store.Opening
import SymbolGraph.Proofs.Store.Order
import SymbolGraph.Proofs.Store.Outlining
import SymbolGraph.Proofs.Store.Receipts
import SymbolGraph.Proofs.Store.Receiving
import SymbolGraph.Proofs.Store.Retaining
import SymbolGraph.Proofs.Store.Sealing
import SymbolGraph.Proofs.Store.Shutting
import SymbolGraph.Proofs.Store.Steps
import SymbolGraph.Proofs.Store.Tallying
import SymbolGraph.Proofs.Store.Watching
import SymbolGraph.Proofs.Store.Working
import SymbolGraph.Proofs.Symbol.Circling
import SymbolGraph.Proofs.Symbol.Coordinates
import SymbolGraph.Proofs.Symbol.Disposing
import SymbolGraph.Proofs.Symbol.Inheriting
import SymbolGraph.Proofs.Symbol.Kinds
import SymbolGraph.Proofs.Symbol.Leading
import SymbolGraph.Proofs.Symbol.Linking
import SymbolGraph.Proofs.Symbol.Needs
import SymbolGraph.Proofs.Symbol.Paths
import SymbolGraph.Proofs.Symbol.Releasing
import SymbolGraph.Proofs.Symbol.Remembering
import SymbolGraph.Proofs.Symbol.Sheltering
import SymbolGraph.Proofs.Symbol.Sweeping
import SymbolGraph.Proofs.Symbol.Terminating
import SymbolGraph.Proofs.Table
import SymbolGraph.Proofs.Text.Cuts
import SymbolGraph.Proofs.Text.Positions
import SymbolGraph.Record.Basic
import SymbolGraph.Record.Ledger
import SymbolGraph.Run
import SymbolGraph.Session.Basic
import SymbolGraph.Session.Resolve
import SymbolGraph.Session.Walk
import SymbolGraph.Store.Accumulate
import SymbolGraph.Store.Basic
import SymbolGraph.Store.LifeCycle
import SymbolGraph.Symbol.ExportPath
import SymbolGraph.Symbol.Heritage
import SymbolGraph.Symbol.Key
import SymbolGraph.Symbol.Overrides
import SymbolGraph.Symbol.Resolution
import SymbolGraph.Table
import SymbolGraph.Text.Basic
import SymbolGraph.Text.Bytes
import SymbolGraph.Text.Digest
import SymbolGraph.Text.LineIndex
import SymbolGraph.Text.Position
