import Netty.Proof.Tunnel
import Netty.Proof.Payload
import Netty.Proof.Handoff
import Netty.Proof.Ping
import Netty.Proof.Uploads
import Netty.Proof.Drain
import Netty.Proof.H3Writer
import Netty.Proof.H2Writer
import Netty.Proof.Coerced
import Netty.Proof.Fused
import Netty.Proof.Persist
import Netty.Proof.Fold
import Netty.Proof.Multiplexed
import Netty.Proof.BufList
import Netty.Proof.Trailers
import Netty.Proof.ConnectGate
import Netty.Proof.Unread
import Netty.Proof.UdpReady
import Netty.Proof.Unframe
import Netty.Proof.QuicStream
import Netty.Proof.SenderWake
import Netty.Proof.H3Transfer
import Netty.Proof.ReadStrategy
import Netty.Proof.Bdp
