import Tacenta.Words
import Tacenta.Kdf
import Tacenta.Boundary
import Tacenta.Lists
import Tacenta.Ratchet.State
import Tacenta.Spqr.State
import Tacenta.Triple
import Tacenta.Erasure.Code
import Tacenta.Kem
import Tacenta.Braid.State
import Tacenta.Format
import Tacenta.Wire
import Tacenta.Handshake
import Tacenta.Store.State
import Tacenta.Session.State
import Tacenta.Session.Establish
import Tacenta.Session.Responder
import Tacenta.Store.Codec
import Tacenta.Store.Invariant
import Tacenta.Store.Lifetime
import Tacenta.Store.Replay
import Tacenta.Sample
import Tacenta.Store.Contract
import Tacenta.Ratchet.Invariant
import Tacenta.Spqr.Invariant
import Tacenta.Session.Calls
import Tacenta.Erasure.Coders
import Tacenta.Braid.Invariant
import Tacenta.Spqr.Window
import Tacenta.Session.Epochs
import Tacenta.Ratchet.Codec
import Tacenta.Spqr.Codec
import Tacenta.Triple.Invariant
import Tacenta.Triple.Codec
import Tacenta.Erasure.Codec
import Tacenta.Braid.Codec
import Tacenta.Session.Invariant
import Tacenta.Session.Codec
import Tacenta.Runs
import Tacenta.Spqr.Moves
import Tacenta.Spqr.Runs
import Tacenta.Spqr.Agreement
import Tacenta.Triple.Inductive
import Tacenta.Ratchet.Line
import Tacenta.Ratchet.Agreement
import Tacenta.Spqr.Lineage
import Tacenta.Triple.Sends
import Tacenta.Session.Sends
import Tacenta.Store.Migration
import Tacenta.Session.Opening
import Tacenta.Store.Serving
import Tacenta.Curve
import Tacenta.Indexed
import Tacenta.Wire.Bundle
import Tacenta.Wire.Exact
import Tacenta.Wire.Positions
import Tacenta.Braid.Runs
import Tacenta.Session.Authenticated
import Tacenta.Braid.Exact
import Tacenta.Entries
import Tacenta.Ratchet.Exact
import Tacenta.Spqr.Exact
import Tacenta.Triple.Exact
import Tacenta.Base128
import Tacenta.Protobuf.Reader
import Tacenta.Protobuf.Message
import Tacenta.Protobuf.Exact
import Tacenta.Inventory.Statement
import Tacenta.Inventory.Canonical
import Tacenta.Inventory.Accept
import Tacenta.Inventory.Checks
import Tacenta.Erasure.Field
import Tacenta.Erasure.Interpolation
import Tacenta.Erasure.Recovery
import Tacenta.Erasure.Exact
import Tacenta.Erasure.Runs
import Tacenta.Standards
import Tacenta.Kdf.Sha256
import Tacenta.Kdf.Hkdf
import Tacenta.Identities.Digest
import Tacenta.Xeddsa
import Tacenta.Xeddsa.Line
import Tacenta.Maps
import Tacenta.Ratchet.Skips
import Tacenta.Spqr.Skips
import Tacenta.Triple.Skips
import Tacenta.Ratchet.Moves
import Tacenta.Ratchet.Replay
import Tacenta.Curve.Copies
import Tacenta.Oldest
import Tacenta.Ratchet.Oldest
import Tacenta.Spqr.History
import Tacenta.Triple.Oldest
import Tacenta.Ratchet.Aging
import Tacenta.Session.Eviction
import Tacenta.Triple.Runs
import Tacenta.Session.EvictionBounds
import Tacenta.Identities.Records
import Tacenta.Store.Batch
import Tacenta.Spqr.Keys
import Tacenta.Session.Exchange
import Tacenta.Braid.Ledger
import Tacenta.Network
import Tacenta.Braid.Agreement
import Tacenta.Braid.Progress
import Tacenta.Braid.Wedge
import Tacenta.Ratchet.InOrder
import Tacenta.Spqr.InOrder
import Tacenta.Braid.InOrder
import Tacenta.Session.InOrder
import Tacenta.Session.Lossy
