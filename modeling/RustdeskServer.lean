import RustdeskServer.Framework.Runs
import RustdeskServer.Framework.Framing
import RustdeskServer.Framework.Text
import RustdeskServer.Framework.Path
import RustdeskServer.Framework.FileStore
import RustdeskServer.Framework.Fuel
import RustdeskServer.Framework.FileTree
import RustdeskServer.Framework.Words
import RustdeskServer.Framework.Simulation
import RustdeskServer.Framework.Locks
import RustdeskServer.Framework.Sections
import RustdeskServer.Codec.BytesCodec
import RustdeskServer.Codec.RoundTrip
import RustdeskServer.Codec.Grammar
import RustdeskServer.Codec.EndOfStream
import RustdeskServer.Codec.Reader
import RustdeskServer.Codec.InFlight
import RustdeskServer.Stream.FramedStream
import RustdeskServer.Stream.Session
import RustdeskServer.Stream.Nonces
import RustdeskServer.Stream.Authenticity
import RustdeskServer.Stream.RejectedSend
import RustdeskServer.Stream.SecuredPair
import RustdeskServer.Configuration.Config
import RustdeskServer.Configuration.WriteThrough
import RustdeskServer.Configuration.PeerConfig
import RustdeskServer.Configuration.PeerMap
import RustdeskServer.Configuration.Credentials
import RustdeskServer.Configuration.Confirmations
import RustdeskServer.Configuration.Options
import RustdeskServer.Configuration.PeerAccess
import RustdeskServer.Configuration.PeerListing
import RustdeskServer.Configuration.BestServer
import RustdeskServer.Configuration.Restart
import RustdeskServer.Configuration.Threads
import RustdeskServer.Configuration.InTurn
import RustdeskServer.Configuration.Guarded
import RustdeskServer.Configuration.Sections
import RustdeskServer.Configuration.Generated
import RustdeskServer.Transfer.TransferJob
import RustdeskServer.Transfer.Receiver
import RustdeskServer.Transfer.Routing
import RustdeskServer.Transfer.Confinement
import RustdeskServer.Transfer.Sender
import RustdeskServer.Transfer.ReadJobs
import RustdeskServer.Transfer.Completion
import RustdeskServer.Transfer.Delivery
import RustdeskServer.Transfer.Pipe
import RustdeskServer.Transfer.Termination
import RustdeskServer.Transfer.EndToEnd
import RustdeskServer.Transfer.Commit
import RustdeskServer.Transfer.Untouched
import RustdeskServer.Transfer.Cancel
import RustdeskServer.Transfer.Compression
import RustdeskServer.Transfer.Intact
import RustdeskServer.Transfer.ErrorNumbers
import RustdeskServer.Transfer.Listing
import RustdeskServer.Transfer.EmptyDirs
import RustdeskServer.Transfer.Totals
import RustdeskServer.Transfer.Progress
import RustdeskServer.Transfer.Together
import RustdeskServer.Transfer.Copying
import RustdeskServer.Transfer.Cleaning
import RustdeskServer.Rendezvous.Server
import RustdeskServer.Rendezvous.SelectRounds
import RustdeskServer.Rendezvous.Registration
import RustdeskServer.Rendezvous.Relay
import RustdeskServer.Rendezvous.Sessions
import RustdeskServer.Rendezvous.Registry
import RustdeskServer.Rendezvous.Answers
import RustdeskServer.Rendezvous.AddrMangle
import RustdeskServer.Rendezvous.VersionUrl
import RustdeskServer.Rendezvous.Tunnel
import RustdeskServer.Rendezvous.Isolation
import RustdeskServer.Rendezvous.Partners
import RustdeskServer.Transfer.Relayed
