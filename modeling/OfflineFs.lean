import OfflineFs.Caches.Bounds
import OfflineFs.Caches.Consistency
import OfflineFs.Caches.Credentials
import OfflineFs.Caches.Entries
import OfflineFs.Caches.Growth
import OfflineFs.Caches.Lifetimes
import OfflineFs.Caches.Lookup
import OfflineFs.Caches.Memory
import OfflineFs.Caches.Paths
import OfflineFs.Caches.Recency
import OfflineFs.Caches.Search
import OfflineFs.Caches.Segments
import OfflineFs.Caches.Steady
import OfflineFs.Caches.Tokens
import OfflineFs.Changes.Absolute
import OfflineFs.Changes.Additions
import OfflineFs.Changes.Aliases
import OfflineFs.Changes.Answers
import OfflineFs.Changes.Attributes
import OfflineFs.Changes.Balance
import OfflineFs.Changes.Births
import OfflineFs.Changes.Census
import OfflineFs.Changes.Climbing
import OfflineFs.Changes.Combining
import OfflineFs.Changes.Completeness
import OfflineFs.Changes.Crashes
import OfflineFs.Changes.Creating
import OfflineFs.Changes.Crowds
import OfflineFs.Changes.Dressing
import OfflineFs.Changes.Hierarchy
import OfflineFs.Changes.Importing
import OfflineFs.Changes.Kinds
import OfflineFs.Changes.Lineage
import OfflineFs.Changes.Links
import OfflineFs.Changes.Logic
import OfflineFs.Changes.Moves
import OfflineFs.Changes.Namespaces
import OfflineFs.Changes.Natures
import OfflineFs.Changes.Outcomes
import OfflineFs.Changes.Ownership
import OfflineFs.Changes.Performances
import OfflineFs.Changes.Primitives
import OfflineFs.Changes.Refusals
import OfflineFs.Changes.Relinking
import OfflineFs.Changes.Renaming
import OfflineFs.Changes.Reshaping
import OfflineFs.Changes.Root
import OfflineFs.Changes.Settling
import OfflineFs.Changes.Sites
import OfflineFs.Changes.Successes
import OfflineFs.Changes.Tools
import OfflineFs.Changes.Trees
import OfflineFs.Changes.Undoing
import OfflineFs.Changes.Warrant
import OfflineFs.Changes.Withdrawing
import OfflineFs.Database.Allocation
import OfflineFs.Database.Bytes
import OfflineFs.Database.History
import OfflineFs.Database.Layout
import OfflineFs.Database.Store
import OfflineFs.Effect.Calls
import OfflineFs.Effect.Program
import OfflineFs.Effect.Triple
import OfflineFs.Files.Backing
import OfflineFs.Files.Failures
import OfflineFs.Files.Handles
import OfflineFs.Files.Host
import OfflineFs.Files.Operations
import OfflineFs.Files.Orphans
import OfflineFs.Files.Places
import OfflineFs.Files.Queries
import OfflineFs.Files.Sizes
import OfflineFs.Files.Storage
import OfflineFs.Files.Times
import OfflineFs.Files.WriteBack
import OfflineFs.Formats.Listing
import OfflineFs.Formats.Matching
import OfflineFs.Formats.Numbers
import OfflineFs.Formats.Numerals
import OfflineFs.Formats.Parsing
import OfflineFs.Formats.Prefixes
import OfflineFs.Map.FileTree
import OfflineFs.Map.Handles
import OfflineFs.Map.Ordered
import OfflineFs.Map.Recent
import OfflineFs.Map.Tables
import OfflineFs.Media.Commands
import OfflineFs.Media.Registers
import OfflineFs.Media.Sessions
import OfflineFs.Media.Statistics
import OfflineFs.Model.Effects
import OfflineFs.Model.Format
import OfflineFs.Model.Fs
import OfflineFs.Model.Medium
import OfflineFs.Model.Nodes
import OfflineFs.Model.Offimport
import OfflineFs.Model.Offmedia
import OfflineFs.Model.OpenFiles
import OfflineFs.Model.Path
import OfflineFs.Model.PathCache
import OfflineFs.Model.Register
import OfflineFs.Model.SContextCache
import OfflineFs.Model.Source
import OfflineFs.Model.Statistics
import OfflineFs.Model.World
import OfflineFs.Run.Backend
import OfflineFs.Run.Durable
import OfflineFs.Run.Files
import OfflineFs.Run.Imports
import OfflineFs.Run.Operations
import OfflineFs.Run.PathCaches
import OfflineFs.Run.Permissions
import OfflineFs.Run.Quiet
import OfflineFs.Run.Reads
import OfflineFs.Run.Registers
import OfflineFs.Run.Requests
import OfflineFs.Run.Scopes
import OfflineFs.Run.Start
import OfflineFs.Run.Uncached
import OfflineFs.Text.Leftmost
import OfflineFs.Transition.Namespace
import OfflineFs.Transition.Run
import OfflineFs.Transition.Trail
import OfflineFs.Types
