import Hannibal.Lib.Machine
import Hannibal.Lib.AsyncChannel
import Hannibal.Actor
import Hannibal.EventLoop
import Hannibal.LoopTask
import Hannibal.Lifecycle
import Hannibal.Operation
import Hannibal.World
import Hannibal.Client
import Hannibal.Mailbox
import Hannibal.Senders
import Hannibal.Requests
import Hannibal.Stranding
import Hannibal.Fold
import Hannibal.Order
import Hannibal.StopNotice
import Hannibal.Lib.Futures
import Hannibal.Joining
import Hannibal.FailFast
import Hannibal.Errors
import Hannibal.Agreement
import Hannibal.Broker
import Hannibal.Lib.PubSub
import Hannibal.Lib.Table
import Hannibal.Topic
import Hannibal.Delivery
import Hannibal.Publication
import Hannibal.Registry
import Hannibal.Service
import Hannibal.Continuity
import Hannibal.Lib.Refs
import Hannibal.Handles
import Hannibal.StrongHandles
import Hannibal.Awaiting
import Hannibal.Interval
import Hannibal.Ticks
import Hannibal.Backlog
import Hannibal.Expiry
import Hannibal.Spawn
import Hannibal.Serving
import Hannibal.FirstPing
import Hannibal.Tasks
import Hannibal.Tracking
import Hannibal.Restart
import Hannibal.StreamRestart
import Hannibal.Loops
import Hannibal.StreamLoop
import Hannibal.Cascade
import Hannibal.Collecting
import Hannibal.Eviction
import Hannibal.Lib.Linearizability
import Hannibal.Linearity
import Hannibal.LockSection
import Hannibal.Startup
import Hannibal.Standstill
import Hannibal.Lib.Budget
import Hannibal.Delayed
import Hannibal.Progress
import Hannibal.Abandonment
import Hannibal.BrokerProgress
import Hannibal.Cancelling
import Hannibal.Cadence
import Hannibal.Builder
