import MeteredStore.Argument
import MeteredStore.Bindings
import MeteredStore.Books
import MeteredStore.Bounds
import MeteredStore.Bytes
import MeteredStore.Cursor
import MeteredStore.Item
import MeteredStore.Linked.Basic
import MeteredStore.Linked.Reading
import MeteredStore.Linked.Walking
import MeteredStore.Linked.Writing
import MeteredStore.Number.Basic
import MeteredStore.Number.Decimal
import MeteredStore.Number.Shortest
import MeteredStore.Prices
import MeteredStore.Proofs.Arguments
import MeteredStore.Proofs.Contents
import MeteredStore.Proofs.Entries.Renaming
import MeteredStore.Proofs.Entries.Repair
import MeteredStore.Proofs.Entries.Trees
import MeteredStore.Proofs.Height
import MeteredStore.Proofs.Insertion
import MeteredStore.Proofs.Invariants
import MeteredStore.Proofs.Iterators.Asked
import MeteredStore.Proofs.Iterators.Chains
import MeteredStore.Proofs.Iterators.Charges
import MeteredStore.Proofs.Iterators.Ending
import MeteredStore.Proofs.Iterators.Families
import MeteredStore.Proofs.Iterators.Lifecycle
import MeteredStore.Proofs.Iterators.Sharing
import MeteredStore.Proofs.Iterators.Shortcut
import MeteredStore.Proofs.Iterators.Snapshot
import MeteredStore.Proofs.Linked.Cells
import MeteredStore.Proofs.Linked.Depth
import MeteredStore.Proofs.Linked.Identity
import MeteredStore.Proofs.Linked.Insertion
import MeteredStore.Proofs.Linked.Loops
import MeteredStore.Proofs.Linked.Mirror
import MeteredStore.Proofs.Linked.RedPair
import MeteredStore.Proofs.Linked.Removal
import MeteredStore.Proofs.Linked.Rotation
import MeteredStore.Proofs.Linked.Safety
import MeteredStore.Proofs.Linked.Shortage
import MeteredStore.Proofs.Linked.Stack
import MeteredStore.Proofs.Linked.Treelike
import MeteredStore.Proofs.Linked.Walking
import MeteredStore.Proofs.Linked.Ways
import MeteredStore.Proofs.Linked.Written
import MeteredStore.Proofs.Live.Basic
import MeteredStore.Proofs.Live.Bounds
import MeteredStore.Proofs.Live.History
import MeteredStore.Proofs.Live.Links
import MeteredStore.Proofs.Live.Nested
import MeteredStore.Proofs.Live.Standing
import MeteredStore.Proofs.Live.Supply
import MeteredStore.Proofs.Mirror
import MeteredStore.Proofs.Nodes
import MeteredStore.Proofs.Place
import MeteredStore.Proofs.Prices
import MeteredStore.Proofs.Refinement
import MeteredStore.Proofs.Refusals
import MeteredStore.Proofs.Removal
import MeteredStore.Proofs.Stepping
import MeteredStore.Proofs.Views
import MeteredStore.Proofs.Walk
import MeteredStore.Refusal
import MeteredStore.Session.Basic
import MeteredStore.Session.Command
import MeteredStore.Session.Effects
import MeteredStore.Session.Iteration
import MeteredStore.SortedMap
import MeteredStore.Store
import MeteredStore.Text.Printable
import MeteredStore.Text.Quoted
import MeteredStore.Tree.Balance
import MeteredStore.Tree.Basic
import MeteredStore.Tree.Insertion
import MeteredStore.Tree.Path
import MeteredStore.Tree.Removal
import MeteredStore.Tree.Rotation
