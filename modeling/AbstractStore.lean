import AbstractStore.Address
import AbstractStore.Allocation
import AbstractStore.Ascending.Key
import AbstractStore.Ascending.Map
import AbstractStore.Ascending.Set
import AbstractStore.Ascending.Sorting
import AbstractStore.Environment
import AbstractStore.Event
import AbstractStore.Fault
import AbstractStore.Heap
import AbstractStore.Heap.Reachable
import AbstractStore.Json.Codec
import AbstractStore.Json.Decoder
import AbstractStore.Json.Quoted
import AbstractStore.Json.Scan
import AbstractStore.Json.Token
import AbstractStore.Machine.Branch
import AbstractStore.Machine.Definition
import AbstractStore.Machine.Members
import AbstractStore.Machine.Requests
import AbstractStore.Machine.Scope
import AbstractStore.Machine.State
import AbstractStore.Name
import AbstractStore.Object
import AbstractStore.Proofs.Boxes
import AbstractStore.Proofs.Brackets
import AbstractStore.Proofs.Branches
import AbstractStore.Proofs.Canonical
import AbstractStore.Proofs.Cells
import AbstractStore.Proofs.Chronicles
import AbstractStore.Proofs.Closedness
import AbstractStore.Proofs.Collection
import AbstractStore.Proofs.Confluence
import AbstractStore.Proofs.Definitions
import AbstractStore.Proofs.Draws
import AbstractStore.Proofs.EnvironmentTexts
import AbstractStore.Proofs.HiddenCollection
import AbstractStore.Proofs.Hierarchy
import AbstractStore.Proofs.Horizons
import AbstractStore.Proofs.Json.Faithful
import AbstractStore.Proofs.Json.Spelling
import AbstractStore.Proofs.Json.Views
import AbstractStore.Proofs.Lifetime
import AbstractStore.Proofs.Lineage
import AbstractStore.Proofs.LiveRoots
import AbstractStore.Proofs.Meeting
import AbstractStore.Proofs.MemberSearch
import AbstractStore.Proofs.ModuleReplay
import AbstractStore.Proofs.Moments
import AbstractStore.Proofs.Monotonicity
import AbstractStore.Proofs.NameSpelling
import AbstractStore.Proofs.Occasions
import AbstractStore.Proofs.Orders
import AbstractStore.Proofs.Passivity
import AbstractStore.Proofs.Programs
import AbstractStore.Proofs.Reachability
import AbstractStore.Proofs.Rebinding
import AbstractStore.Proofs.Renaming
import AbstractStore.Proofs.Replay
import AbstractStore.Proofs.Requests
import AbstractStore.Proofs.RootFrame
import AbstractStore.Proofs.RoundTrip
import AbstractStore.Proofs.ScopeExits
import AbstractStore.Proofs.Scoping
import AbstractStore.Proofs.Steps
import AbstractStore.Proofs.Summary
import AbstractStore.Proofs.Surroundings
import AbstractStore.Proofs.Tours
import AbstractStore.Proofs.Trace
import AbstractStore.Proofs.Visibility
import AbstractStore.Proofs.Warnings
import AbstractStore.Recovery
import AbstractStore.Request
import AbstractStore.Snapshot
import AbstractStore.Source
import AbstractStore.Text.Decimal
import AbstractStore.Text.Hex
import AbstractStore.Text.Literal
import AbstractStore.Text.Unprintable
import AbstractStore.Value
