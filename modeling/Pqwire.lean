import Pqwire.Proof.Agree
import Pqwire.Proof.Rows
import Pqwire.Proof.Payloads
import Pqwire.Proof.Recovery
import Pqwire.Proof.Dialog
import Pqwire.Proof.Exchange
import Pqwire.Proof.Fifo
import Pqwire.Proof.Termination
import Pqwire.Proof.Session
import Pqwire.Proof.Idle
import Pqwire.Proof.Inverse
import Pqwire.Proof.Reset
import Pqwire.Proof.Access
import Pqwire.Proof.Columns
import Pqwire.Proof.Atomic
import Pqwire.Proof.Capacity
import Pqwire.Proof.Misread
import Pqwire.Proof.WellFormed
import Pqwire.Proof.Limits
import Pqwire.Proof.Scram
import Pqwire.Proof.Errors
import Pqwire.Proof.Ring
import Pqwire.Proof.Copies
import Pqwire.Proof.Mitm
import Pqwire.Proof.Memory
import Pqwire.Proof.Lifetime
import Pqwire.Proof.Footprint
import Pqwire.Proof.Filter
import Pqwire.Proof.Handshake
import Pqwire.Proof.Drain
import Pqwire.Proof.Forward
import Pqwire.Proof.Duplex
import Pqwire.Proof.Proxy
import Pqwire.Proof.Fuzz
import Pqwire.Proof.Auth
