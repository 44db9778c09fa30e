import AndrenBoost.Multiplex.Announcement
import AndrenBoost.Multiplex.Clearing
import AndrenBoost.Multiplex.Fetch
import AndrenBoost.Multiplex.Segmentation
import AndrenBoost.Multiplex.Transfer
import AndrenBoost.Spl.Accepted
import AndrenBoost.Spl.Bounds
import AndrenBoost.Spl.Aligned
import AndrenBoost.Spl.Cut
import AndrenBoost.Spl.Defects
import AndrenBoost.Spl.Failed
import AndrenBoost.Spl.Kept
import AndrenBoost.Jcp.Header
import AndrenBoost.Jcp.Retry
import AndrenBoost.Jcp.Leftovers
import AndrenBoost.Jcp.Format
import AndrenBoost.Jcp.Extention
import AndrenBoost.Lib.Component
import AndrenBoost.Multiplex.Session
import AndrenBoost.Multiplex.Delivery
import AndrenBoost.Multiplex.Program
import AndrenBoost.Lib.Workload
import AndrenBoost.Multiplex.Latency
import AndrenBoost.Lib.Reduction
import AndrenBoost.Spl.Threads
import AndrenBoost.Spl.Exchange
import AndrenBoost.Spl.Calls
import AndrenBoost.Spl.Recovery
import AndrenBoost.Jcp.Receive
import AndrenBoost.Context.Manager
import AndrenBoost.Spl.Pool
import AndrenBoost.Multiplex.Duplex
import AndrenBoost.Sockstream.Echo
