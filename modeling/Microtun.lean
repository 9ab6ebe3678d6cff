import Microtun.Api
import Microtun.Api.Client
import Microtun.Api.Session
import Microtun.Bytes
import Microtun.Config
import Microtun.Cookie
import Microtun.Core.Admission
import Microtun.Core.Clocks
import Microtun.Core.Consistency
import Microtun.Core.Desk
import Microtun.Core.Diary
import Microtun.Core.Engine
import Microtun.Core.Envelope
import Microtun.Core.Ledger
import Microtun.Core.Links
import Microtun.Core.Lookup
import Microtun.Core.Pacing
import Microtun.Core.Pool
import Microtun.Core.Promises
import Microtun.Core.Receive
import Microtun.Core.Registry
import Microtun.Core.Runs
import Microtun.Core.Spec.Address
import Microtun.Core.Spec.Admission
import Microtun.Core.Spec.Answers
import Microtun.Core.Spec.Calls
import Microtun.Core.Spec.Completion
import Microtun.Core.Spec.Data
import Microtun.Core.Spec.Deadlines
import Microtun.Core.Spec.Delivery
import Microtun.Core.Spec.Eviction
import Microtun.Core.Spec.Handshake
import Microtun.Core.Spec.Lookup
import Microtun.Core.Spec.New
import Microtun.Core.Spec.Outbound
import Microtun.Core.Spec.Pool
import Microtun.Core.Spec.Receive
import Microtun.Core.Spec.Reconcile
import Microtun.Core.Spec.Resolved
import Microtun.Core.Spec.Timers
import Microtun.Core.Spec.Transport
import Microtun.Core.Stamps
import Microtun.Core.State
import Microtun.Core.Tables
import Microtun.Core.Timekeeping
import Microtun.Core.Traffic
import Microtun.Core.Transport
import Microtun.Core.View
import Microtun.Crypto
import Microtun.Crypto.Reference
import Microtun.Error
import Microtun.Firewall
import Microtun.Firewall.Flows
import Microtun.Firewall.Related
import Microtun.Firewall.Table
import Microtun.Ip
import Microtun.KeyText
import Microtun.Lib.BitString
import Microtun.Lib.Except
import Microtun.Lib.HashMap
import Microtun.Lib.Hoare
import Microtun.Lib.OptionPool
import Microtun.Lib.RadixTree
import Microtun.Lib.System
import Microtun.Mcuboot
import Microtun.Mcuboot.Area
import Microtun.Mcuboot.Container
import Microtun.Mcuboot.Entries
import Microtun.Mcuboot.Stream
import Microtun.Messages
import Microtun.Net
import Microtun.Noise
import Microtun.Noise.Agreement
import Microtun.Peer
import Microtun.Pending
import Microtun.PrefixTrie.Correct
import Microtun.PrefixTrie.Model
import Microtun.PrefixTrie.Pool
import Microtun.PrefixTrie.Refine
import Microtun.PrefixTrie.Store
import Microtun.Rate
import Microtun.Rate.Sources
import Microtun.Relay
import Microtun.Relay.Grammar
import Microtun.Replay
import Microtun.Routing.Correct
import Microtun.Routing.Model
import Microtun.Serial.Device
import Microtun.Serial.Requests
import Microtun.Serial.Runs
import Microtun.Session
import Microtun.Telnet
import Microtun.Telnet.Client
import Microtun.Telnet.Endpoint
import Microtun.Telnet.Exchange
import Microtun.Telnet.Halves
import Microtun.Telnet.Link
import Microtun.Telnet.Serial
import Microtun.Telnet.Server
import Microtun.Time
import Microtun.Tracker.Authority
import Microtun.Tracker.Config
import Microtun.Tracker.Dispatch
import Microtun.Tracker.Registry
import Microtun.Tracker.Reload
import Microtun.Tracker.Resolver
import Microtun.Tracker.Rpc
import Microtun.Tracker.Server
import Microtun.Tracker.Toml
import Microtun.Cookie.RoundTrip
import Microtun.Mcuboot.Stored
import Microtun.Lib.Transducer
import Microtun.Telnet.Table
import Microtun.Telnet.Framing
import Microtun.Ws
import Microtun.Ws.Connection
import Microtun.Ws.Frame
import Microtun.Ws.Received
import Microtun.Ws.RoundTrip
import Microtun.Core.Gate
import Microtun.Core.Initiations
import Microtun.Api.Records
import Microtun.Tracker.Budget
import Microtun.Tracker.Changes
import Microtun.Tracker.Permits
import Microtun.Cli.Cursor
import Microtun.Cli.Editing
import Microtun.Cli.Effects
import Microtun.Cli.Extract
import Microtun.Cli.Independent
import Microtun.Cli.Reference
import Microtun.Cli.Candidates
import Microtun.Cli.Current
import Microtun.Cli.Insertion
import Microtun.Buffer
import Microtun.Dhcp.Leases
import Microtun.Firmware.Codec
import Microtun.Firmware.Payload
import Microtun.Handoff.Connection
import Microtun.Handoff.Payload
import Microtun.Lib.Awaiting
import Microtun.Mdns.Discovery
import Microtun.Rfc2217.Flow
import Microtun.Rfc2217.Requests
import Microtun.Rfc2217.Session
import Microtun.Serial.Dropped
import Microtun.Serial.Failures
import Microtun.Tracker.Agreement
import Microtun.Mdns.Pointers
import Microtun.Tracker.Attribution
import Microtun.Core.Inflight
import Microtun.Core.Obligations
import Microtun.Core.Displacement
import Microtun.Core.Pinned
import Microtun.Core.Settlement
import Microtun.Ymodem.RoundTrip
