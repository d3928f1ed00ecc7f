import Tandem.Catalog.Json
import Tandem.Proofs.History.Zipper
import Tandem.Proofs.Octet.Document
import Tandem.Proofs.Source.Regenerate
import Tandem.Proofs.Source.RoundTrip
import Tandem.Proofs.Sync.Coherence
import Tandem.Proofs.Sync.Echo
import Tandem.Proofs.Sync.WellFormed
import Tandem.Sync
import Tandem.Proofs.History.Redo
import Tandem.Proofs.Sync.Direct
import Tandem.Proofs.Sync.Unchanged
import Tandem.Proofs.Sync.Delivery
import Tandem.Proofs.Store.Outcome
import Tandem.Proofs.Source.Search
import Tandem.Proofs.Source.Exposed
import Tandem.Proofs.Source.Declared
import Tandem.Proofs.Sync.Recognised
import Tandem.Proofs.Forest.Move
import Tandem.Proofs.Store.Selection
import Tandem.Proofs.Forest.Path
import Tandem.Proofs.Forest.Inverse
import Tandem.Proofs.Forest.Patch
import Tandem.Proofs.Source.Attribute
import Tandem.Proofs.Decimal.Interval
import Tandem.Proofs.Decimal.Shortest
import Tandem.Proofs.Json.Number
import Tandem.Proofs.Json.Unambiguous
import Tandem.Proofs.Fingerprint
import Tandem.Proofs.Source.Expression
import Tandem.Proofs.Source.Torn
import Tandem.Proofs.Source.Normal
import Tandem.Proofs.Style.Cascade
import Tandem.Proofs.Source.Reread
import Tandem.Proofs.Source.Agreement
import Tandem.Proofs.Source.Cascade
import Tandem.Proofs.Octet.Escape
import Tandem.Proofs.Octet.Grammar
import Tandem.Proofs.Octet.TagEnd
import Tandem.Proofs.Source.Tagged
import Tandem.Proofs.Octet.Reach
import Tandem.Proofs.Octet.Passage
