import Sexp.Core.Allocation
import Sexp.Core.AnyTree
import Sexp.Core.Attach
import Sexp.Core.Children
import Sexp.Core.Clone
import Sexp.Core.Contents
import Sexp.Core.Contract
import Sexp.Core.Copying
import Sexp.Core.CycleGuard
import Sexp.Core.Denotation
import Sexp.Core.DepthFirst
import Sexp.Core.Iter
import Sexp.Core.LeafAtoms
import Sexp.Core.Moving
import Sexp.Core.Mutation
import Sexp.Core.Numbering
import Sexp.Core.Refinement
import Sexp.Core.Relink
import Sexp.Core.Removal
import Sexp.Core.SecureRoot
import Sexp.Core.Tree
import Sexp.Core.WellFormed
import Sexp.Library.ForestValue
import Sexp.Library.Form
import Sexp.Library.FreshMap
import Sexp.Library.Growth
import Sexp.Library.LinkedList
import Sexp.Library.Loop
import Sexp.Library.OrderedForest
import Sexp.Library.Planting
import Sexp.Library.Preorder
import Sexp.Library.Rose
import Sexp.Library.Transition
import Sexp.Memory.Atom
import Sexp.Memory.AtomEquality
import Sexp.Memory.Slab
import Sexp.Memory.SlabRuns
import Sexp.Parse.AnyText
import Sexp.Parse.Construction
import Sexp.Parse.Correctness
import Sexp.Parse.Layout
import Sexp.Parse.Lexing
import Sexp.Parse.Parser
import Sexp.Parse.Placement
import Sexp.Parse.Reading
import Sexp.Parse.RoundTrip
import Sexp.Parse.Tokenizer
import Sexp.Py.Api
import Sexp.Py.AtomLeaves
import Sexp.Py.Atomicity
import Sexp.Py.Cache
import Sexp.Py.Canonical
import Sexp.Py.Composition
import Sexp.Py.Consistency
import Sexp.Py.Copies
import Sexp.Py.Counting
import Sexp.Py.Determinism
import Sexp.Py.Effect
import Sexp.Py.EqualTexts
import Sexp.Py.Equality
import Sexp.Py.Extraction
import Sexp.Py.Freshness
import Sexp.Py.Guard
import Sexp.Py.Insertion
import Sexp.Py.Isolation
import Sexp.Py.Iteration
import Sexp.Py.NoPanic
import Sexp.Py.Rebuilding
import Sexp.Py.RootStays
import Sexp.Py.Runs
import Sexp.Py.SExp
import Sexp.Py.Shared
import Sexp.Py.Slots
import Sexp.Py.Snapshots
import Sexp.Py.StaleChild
import Sexp.Py.Staleness
import Sexp.Py.Survival
import Sexp.Py.Totality
import Sexp.Py.Verbatim
import Sexp.Py.Versions
import Sexp.Py.Views
import Sexp.Py.Workbench
import Sexp.Py.World
import Sexp.Py.Wrapping
import Sexp.Reference.Abstraction
import Sexp.Reference.Creation
import Sexp.Reference.Document
import Sexp.Reference.Locality
import Sexp.Reference.Reads
import Sexp.Reference.Refinement
import Sexp.Reference.Reparse
import Sexp.Reference.Store
import Sexp.Reference.Trees
import Sexp.Reference.Writes
import Sexp.Serialize.Printing
import Sexp.Serialize.Recursive
import Sexp.Serialize.Serializer
import Sexp.Serialize.Unfolding
import Sexp.Str
