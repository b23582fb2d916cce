import WireCodec.BitSet
import WireCodec.Bytes.Appender
import WireCodec.Config.Environment
import WireCodec.Config.Toml
import WireCodec.Frame.Codec
import WireCodec.Frame.Delivery
import WireCodec.GridId
import WireCodec.Marshal.Marshaller
import WireCodec.Marshal.Writing
import WireCodec.Proofs.BetweenCalls
import WireCodec.Proofs.Cursors
import WireCodec.Proofs.Decoding.Contents
import WireCodec.Proofs.Decoding.Decimals
import WireCodec.Proofs.Decoding.Guards
import WireCodec.Proofs.Decoding.Incremental
import WireCodec.Proofs.Decoding.Objects
import WireCodec.Proofs.Decoding.Positions
import WireCodec.Proofs.Decoding.Reinterpreted
import WireCodec.Proofs.Decoding.Requests
import WireCodec.Proofs.Decoding.Scalars
import WireCodec.Proofs.Decoding.Signs
import WireCodec.Proofs.Decoding.Targets
import WireCodec.Proofs.Dispatch
import WireCodec.Proofs.Exhaustion
import WireCodec.Proofs.Ids
import WireCodec.Proofs.Indices
import WireCodec.Proofs.Marshalling.Sequences
import WireCodec.Proofs.Reading.Faults
import WireCodec.Proofs.Reading.Progress
import WireCodec.Proofs.Reading.Twins
import WireCodec.Proofs.Registration.Cache
import WireCodec.Proofs.Registration.Constants
import WireCodec.Proofs.Registration.Latest
import WireCodec.Proofs.Registration.Names
import WireCodec.Proofs.Registration.Spelling
import WireCodec.Proofs.Registration.States
import WireCodec.Proofs.RoundTrip.Connection
import WireCodec.Proofs.RoundTrip.Counterparts
import WireCodec.Proofs.RoundTrip.Instants
import WireCodec.Proofs.RoundTrip.Nesting
import WireCodec.Proofs.RoundTrip.Shapes
import WireCodec.Proofs.RoundTrip.Stable
import WireCodec.Proofs.RoundTrip.Typed
import WireCodec.Proofs.RoundTrip.Types
import WireCodec.Proofs.RoundTrip.Values
import WireCodec.Proofs.Sessions
import WireCodec.Proofs.Text.Faults
import WireCodec.Proofs.Text.Groups
import WireCodec.Proofs.Twins
import WireCodec.Proofs.Writing.Completion
import WireCodec.Proofs.Writing.Failures
import WireCodec.Proofs.Writing.Progress
import WireCodec.Proofs.Writing.Registrations
import WireCodec.Proofs.Writing.Twins
