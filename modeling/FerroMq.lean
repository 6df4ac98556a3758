import FerroMq.Acl.Placeholders
import FerroMq.Broadcast.Delivery
import FerroMq.Broadcast.Handshake
import FerroMq.Bytesize
import FerroMq.Codec.Limits
import FerroMq.Codec.Stream
import FerroMq.Codec.Trailing
import FerroMq.Codec.Version
import FerroMq.Delayed
import FerroMq.Message.Eviction
import FerroMq.Message.Lookup
import FerroMq.Message.Workers
import FerroMq.Raft.Batching
import FerroMq.Raft.Forwarded
import FerroMq.Raft.Replica
import FerroMq.Raft.Storage
import FerroMq.Retain.Dedup
import FerroMq.Retain.Lifetime
import FerroMq.Retain.Limit
import FerroMq.Retain.Sync
import FerroMq.Router.Damaged
import FerroMq.Router.Order
import FerroMq.Router.Overlap
import FerroMq.Router.Ownership
import FerroMq.Session.Acks
import FerroMq.Session.Carried
import FerroMq.Session.Credit
import FerroMq.Session.Expiry
import FerroMq.Session.HandedOver
import FerroMq.Session.Handover
import FerroMq.Session.Limits
import FerroMq.Session.Lockers
import FerroMq.Session.Publish
import FerroMq.Session.Queue
import FerroMq.Session.Resume
import FerroMq.Session.Retry
import FerroMq.Session.Statistics
import FerroMq.SessionStorage.Session
import FerroMq.Storage.Sled
import FerroMq.Topic.Contents
