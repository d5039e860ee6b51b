import TagFormat.BigEndian
import TagFormat.Error
import TagFormat.Error.Status
import TagFormat.Input.Reading
import TagFormat.Input.Source
import TagFormat.InsertionMap
import TagFormat.Number.BigInt
import TagFormat.Number.Binary
import TagFormat.Number.Decimal
import TagFormat.Output.Sink
import TagFormat.Output.Writing
import TagFormat.Pace
import TagFormat.Registry.Basic
import TagFormat.Registry.Reading
import TagFormat.Registry.Settings
import TagFormat.Registry.Slots
import TagFormat.Registry.Sources
import TagFormat.Scalar.Basic
import TagFormat.Scalar.Script
import TagFormat.Tag.Basic
import TagFormat.Tag.Codec
import TagFormat.Tag.Equality
import TagFormat.Tag.Header
import TagFormat.Tag.Id
import TagFormat.Tag.Reading
import TagFormat.Tag.Size
import TagFormat.Tag.Values
import TagFormat.Tag.Writing
import TagFormat.Text.Hidden
import TagFormat.Text.Quoted
import TagFormat.Text.Utf8
import TagFormat.Varint
import TagFormat.Proofs.Input.Fill
import TagFormat.Proofs.Input.Yields
import TagFormat.Proofs.Text.Utf8
import TagFormat.Proofs.Varint.Canonical
import TagFormat.Proofs.Varint.Decoding
import TagFormat.Proofs.Varint.Zigzag
import TagFormat.Proofs.Varint.Paths
import TagFormat.Proofs.Input.Items
import TagFormat.Proofs.InsertionMap
import TagFormat.Proofs.InsertionMap.Mapped
import TagFormat.Proofs.Input.Readers
import TagFormat.Proofs.Input.Runs
import TagFormat.Proofs.Input.Local
import TagFormat.Proofs.Registry.Locality
import TagFormat.Proofs.Tag.Nesting
import TagFormat.Proofs.Output.Writing
import TagFormat.Proofs.Tag.Holding
import TagFormat.Proofs.Tag.Size
import TagFormat.Proofs.Tag.Mixed
import TagFormat.Proofs.Tag.Cells
import TagFormat.Proofs.Tag.Compact
import TagFormat.Proofs.Tag.Faults
import TagFormat.Proofs.Tag.Forms
import TagFormat.Proofs.Tag.Reading
import TagFormat.Proofs.Tag.Overwriting
import TagFormat.Proofs.Registry.Reading
import TagFormat.Proofs.Tag.Places
import TagFormat.Proofs.Registry.Accepts
import TagFormat.Proofs.Registry.RoundTrip
import TagFormat.Proofs.Registry.Skip
import TagFormat.Proofs.Registry.Limits
import TagFormat.Proofs.Input.Delivery
import TagFormat.Proofs.Input.Taking
import TagFormat.Proofs.Input.Likewise
import TagFormat.Proofs.Output.Capacity
import TagFormat.Proofs.Output.SameBut
import TagFormat.Proofs.Tag.Written
import TagFormat.Proofs.Tag.Equality
import TagFormat.Proofs.Output.Counters
import TagFormat.Proofs.Input.Curbed
import TagFormat.Proofs.Tag.Calls
import TagFormat.Proofs.Registry.Depth
import TagFormat.Proofs.Registry.Threads
import TagFormat.Proofs.Registry.Overwriting
import TagFormat.Proofs.Registry.Declared
import TagFormat.Proofs.Registry.Monotone
import TagFormat.Proofs.InsertionMap.Lists
import TagFormat.Proofs.InsertionMap.Edits
import TagFormat.Proofs.Input.Attribution
import TagFormat.Proofs.Input.Rounds
import TagFormat.Proofs.Tag.Items
import TagFormat.Proofs.Registry.Tally
import TagFormat.Proofs.Registry.Effort
import TagFormat.Proofs.Registry.Batches
import TagFormat.Proofs.Registry.History
import TagFormat.Proofs.Tag.Entries
import TagFormat.Proofs.Registry.Dictionaries
import TagFormat.Proofs.Registry.Bodies
import TagFormat.Proofs.Registry.Holding
import TagFormat.Proofs.Registry.Guests
import TagFormat.Proofs.Registry.Versions
import TagFormat.Proofs.Tag.Upgrade
import TagFormat.Proofs.Registry.Counts
import TagFormat.Proofs.Tag.Header
import TagFormat.Proofs.Number.BigInt
import TagFormat.Proofs.Number.Binary
import TagFormat.Proofs.Number.Decimal
import TagFormat.Proofs.Scalar.Sequences
