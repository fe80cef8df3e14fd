import Umanet.Framework.Run
import Umanet.Framework.Batch
import Umanet.Framework.Custody
import Umanet.Vhost.State
import Umanet.Vhost.Plan
import Umanet.Vhost.Route
import Umanet.Vhost.RouteHistory
import Umanet.Network.Flow
import Umanet.Fast.Frame
import Umanet.Fast.Classify
import Umanet.Fast.Rewrite
import Umanet.Fast.VhostRx
import Umanet.Fast.VhostTx
import Umanet.Fast.Leak
import Umanet.Fast.Delivery
import Umanet.Fast.VidReuse
import Umanet.Slow.PlanCalc
import Umanet.Slow.Arp
import Umanet.Slow.Learning
import Umanet.System.Threads
import Umanet.System.PlanOwnership
import Umanet.System.PlanRemoval
import Umanet.System.Ingress
import Umanet.System.Teardown
import Umanet.Fast.Dispatch
import Umanet.Fast.EthOrder
import Umanet.Fast.Truncation
import Umanet.Fast.TxConservation
import Umanet.Framework.CasTable
import Umanet.Network.FlowHistory
import Umanet.Network.Startup
import Umanet.Slow.MsgPool
import Umanet.Vhost.DeviceTable
import Umanet.Vhost.PlanHistory
import Umanet.Fast.SlowStaging
import Umanet.Fast.EthLeak
import Umanet.Fast.EthTxConservation
import Umanet.Network.FlowIndex
import Umanet.Vhost.NewDevice
import Umanet.Vhost.Connections
import Umanet.Framework.Stride
import Umanet.System.Launch
import Umanet.System.Dashboard
import Umanet.Framework.OnesComplement
import Umanet.Fast.Cksum
import Umanet.Fast.Ecn
import Umanet.Fast.Fragments
import Umanet.Fast.TxOffload
import Umanet.Fast.Requeue
import Umanet.Slow.StaleMsg
import Umanet.Slow.PlanRepair
import Umanet.Vhost.Balance
import Umanet.System.Boot
import Umanet.Framework.Window
import Umanet.Slow.Activity
import Umanet.Fast.Agreement
import Umanet.Fast.AdaptivePoll
import Umanet.Framework.CString
import Umanet.Config.Options
import Umanet.Framework.Scanf
import Umanet.Config.EtherAddr
import Umanet.Config.Cidr
import Umanet.Framework.Holdings
import Umanet.System.Dataplane
import Umanet.System.Ownership
import Umanet.System.Authentic
import Umanet.Framework.Refinement
import Umanet.System.Switch
import Umanet.Fast.Passage
import Umanet.System.TwoNodes
import Umanet.Fast.TxShare
import Umanet.Framework.Publication
import Umanet.System.Reclaim
import Umanet.System.LearnProgress
import Umanet.Config.CommandLine
import Umanet.System.EndToEnd
import Umanet.Framework.Registry
import Umanet.System.MacFilter
import Umanet.Framework.Potential
import Umanet.System.Rounds
import Umanet.System.Work
import Umanet.System.Drain
