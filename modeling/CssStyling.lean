import CssStyling.Document.Edit
import CssStyling.Main
import CssStyling.Token.Cursor
import CssStyling.Proofs.Lineage
import CssStyling.Proofs.Store.Slots
import CssStyling.Proofs.Store.Forgetting
import CssStyling.Proofs.Store.Programs
import CssStyling.Proofs.Store.Freshness
import CssStyling.Proofs.Store.Reading
import CssStyling.Proofs.Store.Resolving
import CssStyling.Proofs.Store.Moving
import CssStyling.Proofs.Store.Writing
import CssStyling.Proofs.Store.Operations
import CssStyling.Proofs.Cascade.Winning
import CssStyling.Proofs.Equality
import CssStyling.Proofs.Store.Contents
import CssStyling.Proofs.Cascade.Applying
import CssStyling.Proofs.SlotMap
import CssStyling.Proofs.Document.Links
import CssStyling.Proofs.Document.Paths
import CssStyling.Proofs.Document.Editing
import CssStyling.Proofs.Matching
import CssStyling.Proofs.Selector.Rendering
import CssStyling.Proofs.Selector.Marking
import CssStyling.Proofs.Selector.Composing
import CssStyling.Proofs.Selector.Parsing
import CssStyling.Proofs.Store.Outcomes
import CssStyling.Proofs.Store.Warming
import CssStyling.Proofs.Store.Defaulting
import CssStyling.Proofs.Document.Order
import CssStyling.Proofs.Store.Planting
import CssStyling.Proofs.Cascade.Passes
import CssStyling.Proofs.Cascade.History
import CssStyling.Document.Threads
import CssStyling.Proofs.Document.Neighbors
import CssStyling.Proofs.Document.Splicing
import CssStyling.Proofs.Document.Threads
import CssStyling.Proofs.Document.Visiting
import CssStyling.Proofs.Document.Inserting
import CssStyling.Proofs.Token.Words
import CssStyling.Proofs.Token.Stopping
import CssStyling.Proofs.Token.Numerals
import CssStyling.Proofs.Token.Rereading
import CssStyling.Proofs.Selector.Balancing
import CssStyling.Proofs.Selector.Printing
import CssStyling.Proofs.SlotMap.Chain
import CssStyling.Proofs.SlotMap.Calls
import CssStyling.Proofs.Cascade.Tallying
import CssStyling.Proofs.Cascade.Keeping
import CssStyling.Proofs.Cascade.Actions
import CssStyling.Proofs.Cascade.Announcing
import CssStyling.Proofs.Cascade.Listening
import CssStyling.Proofs.Cascade.Splitting
import CssStyling.Proofs.Store.Refusing
import CssStyling.Proofs.Cascade.Placing
import CssStyling.Proofs.Cascade.Repeating
import CssStyling.Proofs.Cascade.Accepting
import CssStyling.Proofs.Cascade.Invalidating
import CssStyling.Proofs.Cascade.Remembering
import CssStyling.Proofs.Cascade.Inheriting
import CssStyling.Proofs.Matching.Siblings
import CssStyling.Proofs.Selector.Blaming
import CssStyling.Proofs.Token.Faithful
import CssStyling.Proofs.Matching.Notation
import CssStyling.Proofs.Token.Escapes
import CssStyling.Proofs.Token.Advancing
import CssStyling.Proofs.Selector.Ranking
import CssStyling.Proofs.Selector.Separating
import CssStyling.Proofs.SlotMap.Generations
import CssStyling.Proofs.Document.Removing
import CssStyling.Proofs.Cascade.Transplanting
import CssStyling.Proofs.Cascade.Collecting
import CssStyling.Proofs.Cascade.Attributing
import CssStyling.Document.CachedElement
import CssStyling.Proofs.SlotMap.Staleness
import CssStyling.Proofs.Matching.Leniency
import CssStyling.Proofs.Matching.Caching
import CssStyling.Proofs.Selector.Enclosing
import CssStyling.Proofs.Property.Merging
import CssStyling.Proofs.Property.Numbering
import CssStyling.Proofs.Matching.Word
import CssStyling.Selector.Pool.Reader
import CssStyling.Proofs.Selector.Pooling
import CssStyling.Proofs.Selector.Shaping
import CssStyling.Proofs.Selector.Handling
