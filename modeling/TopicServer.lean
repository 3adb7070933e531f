import TopicServer.Lib.Program
import TopicServer.Lib.SelectLoop
import TopicServer.Lib.Cells
import TopicServer.Lib.Memory
import TopicServer.Lib.Entries
import TopicServer.LinkedList
import TopicServer.Util
import TopicServer.ServerUtil
import TopicServer.Server
import TopicServer.Clients
import TopicServer.Steps
import TopicServer.Kernel
import TopicServer.ListInvariant
import TopicServer.Registry
import TopicServer.Subscriptions
import TopicServer.Delivery
import TopicServer.StoreForward
import TopicServer.Endings
import TopicServer.SubscriberUtil
import TopicServer.Subscriber
import TopicServer.Framing
import TopicServer.System
import TopicServer.Session
import TopicServer.ServerContract
import TopicServer.SubscriberContract
import TopicServer.Codec
import TopicServer.Values
import TopicServer.Descriptors
import TopicServer.Malformed
import TopicServer.ListApi
import TopicServer.ListSequence
import TopicServer.EndOfStream
import TopicServer.Scanning
import TopicServer.Typing
import TopicServer.Connection
import TopicServer.SystemInvariant
import TopicServer.ServerMoves
import TopicServer.Interleaving
import TopicServer.Agreement
import TopicServer.FrameBounds
import TopicServer.Leaks
import TopicServer.Admission
import TopicServer.UniqueTopics
import TopicServer.Comparison
import TopicServer.Parsing
import TopicServer.SubscribeLine
import TopicServer.History
import TopicServer.Broker
import TopicServer.TopicBroker
import TopicServer.Lib.Trace
import TopicServer.SystemLog
import TopicServer.Outgoing
import TopicServer.Screen
import TopicServer.Display
import TopicServer.EndToEnd
import TopicServer.Turns
import TopicServer.InFlight
import TopicServer.Waiting
import TopicServer.Progress
import TopicServer.Faults
import TopicServer.Requests
import TopicServer.Authorship
import TopicServer.Provenance
