import Umanet.Framework.Holdings
import Umanet.Framework.Run
import Umanet.Fast.Ecn
import Umanet.Fast.EthRx
import Umanet.Fast.Requeue
import Umanet.Slow.Arp

namespace Umanet

open Framework

/-- What is fixed when the threads start: the configuration, DPDK's hash, the byte order of
the host, the number of eth_tx cores, and the addresses of the NIC and of the other node. -/
structure Node where
  cfg : Config
  rss : Softrss
  endian : Endian
  ethTxCores : Nat
  ethAddr : Mac
  otherNodeMac : Mac

/-- ecn_mark_packet -/
def Node.mark (n : Node) (d : Data) : Data := ecnMarkPacket (hdrCksum n.endian) d

/-- What eth_tx_loop stores in a frame. -/
def Node.txHeader (n : Node) (d : Data) : Data := ethTxHeader n.ethAddr n.cfg.mac n.otherNodeMac d

/-- What eth_rx_loop stores in a frame for a VM with the address `vmMac`: both addresses,
then fix_cksum. -/
def Node.rxHeader (n : Node) (vmMac : Mac) (d : Data) : Data :=
  (fixCksum n.endian ⟨0,0,0,0,0,putMac (putMac d 0 vmMac) 6 n.cfg.mac⟩).data

variable {μ : Type}

/-- A packet of a NIC queue, with `vdev->mac` as it is when the core copies it. -/
structure NicPacket (μ : Type) extends Polled μ where
  vmMac : Mac

/-- The frame as eth_rx_loop leaves it: rewritten if it goes to a VM. -/
def NicPacket.stored (n : Node) (p : NicPacket μ) : Data :=
  match ethExitOf n.cfg.ip p.toPolled with
  | .vm _ => n.rxHeader p.vmMac p.data
  | _ => p.data

/-- Where an ingress loop is: before a poll, at egress queue j, in the loop over dst_vids, or
before the enqueue to slowpath_ring. The messages staged for the slow path live until then. -/
inductive RxAt (μ : Type)
  | poll
  | eth (j : Nat) (dstVids : List Vid) (msgs : List (SlowMsg μ))
  | vm (dstVids : List Vid) (msgs : List (SlowMsg μ))
  | slow (msgs : List (SlowMsg μ))

def RxAt.msgs : RxAt μ → List (SlowMsg μ)
  | .poll => []
  | .eth _ _ msgs => msgs
  | .vm _ msgs => msgs
  | .slow msgs => msgs

/-- A vhost_rx or eth_rx thread: its arrays and its counters `ecn_rr_eth`, `ecn_rr_vhost`. -/
structure RxThread (μ : Type) where
  pc : RxAt μ
  arrays : Carry μ
  rrEth : Nat → BitVec 32
  rrVhost : Vid → BitVec 32

def RxThread.init : RxThread μ := ⟨.poll,.zero,fun _ => 0,fun _ => 0⟩

/-- Where eth_tx_loop is: at the test of its loop, before rte_eth_tx_burst, before the enqueue
of what the NIC refused, or in free_pkts. -/
inductive EgressAt (queues : Nat) (μ : Type)
  | head (i : Nat)
  | send (q : Fin queues) (pkts : List μ)
  | unsent (q : Fin queues) (pkts : List μ)
  | free (q : Fin queues) (pkts : List μ)

/-- The packets an eth_tx core has dequeued from queue q and not yet passed on. -/
def EgressAt.held {queues : Nat} : EgressAt queues μ → Fin queues → List μ
  | .head _ => fun _ => []
  | .send q pkts | .unsent q pkts | .free q pkts => Function.update (fun _ => []) q pkts

/-- The loop is done with a burst, or goes on with what is left of it. -/
def EgressAt.orHead {queues : Nat} (cores : Nat) (q : Fin queues) (pkts : List μ)
    (pc : EgressAt queues μ) : EgressAt queues μ :=
  if pkts.isEmpty then .head (q.val+cores) else pc

/-- How many entries rte_ring_enqueue_burst takes. -/
def room {α : Type} (ring : List α) : Nat := ringCap-ring.length

/-- The VM whose ring a vhost_tx core dequeues from next. -/
def TxCore.next (core : TxCore μ) : Option Vid :=
  match core.pc with
  | .loop todo => todo.head?
  | .send _ _ _ => none

/-- Where slowpath_loop is in its batch: before a message, or in process_arp_req before the
enqueue of the reply or before rte_pktmbuf_free. -/
inductive SlowAt (μ : Type)
  | next (batch : List (SlowMsg μ))
  | enqueue (vid : Vid) (m : μ) (batch : List (SlowMsg μ))
  | free (m : μ) (batch : List (SlowMsg μ))

/-- The mbufs that belong to messages: a request's is the slow path's to free, while the
frame of a learning message is also on its way elsewhere. -/
def arpMbufs (msgs : List (SlowMsg μ)) : List μ :=
  bucket (fun x => decide (x.reason=.arpReq)) SlowMsg.mbuf msgs

def SlowAt.held : SlowAt μ → List μ
  | .next batch => arpMbufs batch
  | .enqueue _ m batch | .free m batch => m::arpMbufs batch

/-- A packet an ingress loop has polled: a VM's or the NIC's, with what the loop read for it. -/
inductive Seen
  | vhost (d : Data) (r : Route)
  | nic (vmMac : Mac) (d : Data) (r : Route)

/-- The vhost_rx threads and the eth_rx threads. -/
abbrev Node.Rx (n : Node) := Fin n.cfg.vhostRxCores ⊕ Fin n.cfg.ethRxCores

/-- The buffers, who has them, the threads, and a record of the traffic: `seen` are the polled
packets, `delivered` the frames each VM got, `sent` those the NIC took. `lost` are mbufs that
no thread will look at again. -/
structure Dataplane (n : Node) (μ : Type) where
  mem : μ → Data
  pool : List μ
  lost : List μ
  vmRing : Vid → List μ
  ethRing : Fin n.cfg.ethTxQueues → List μ
  nic : Fin n.cfg.ethTxQueues → List μ
  slowRing : List (SlowMsg μ)
  rx : n.Rx → RxThread μ
  tx : Fin n.cfg.vhostTxCores → TxCore μ
  ethTx : Fin n.ethTxCores → EgressAt n.cfg.ethTxQueues μ
  slow : SlowAt μ
  seen : List Seen
  delivered : List (Vid × Data)
  sent : List (Fin n.cfg.ethTxQueues × Data)

/-- Steps of the threads. The bytes of new packets, the clock, the return values of NIC and VMs,
and what the threads read of the route table, the devices and the plans are inputs; so is
`congestion`, which is read before the enqueue. -/
inductive DataAct (n : Node) (μ : Type)
  | rxPoll (c : Fin n.cfg.vhostRxCores) (vid : Vid) (learning : Bool) (pkts : List (Polled μ))
  | ethPoll (c : Fin n.cfg.ethRxCores) (queue : Nat) (snap : Option VdevList)
      (pkts : List (NicPacket μ))
  | flushEth (c : n.Rx) (congestion : Int)
  | flushVm (c : n.Rx) (congestion : Int)
  | flushSlow (c : n.Rx)
  | tx (c : Fin n.cfg.vhostTxCores) (plan : List Vid) (a : TxAct)
  | txRace (c : Fin n.cfg.vhostTxCores) (start : Nat)
  | again (c : Fin n.ethTxCores)
  | dequeue (c : Fin n.ethTxCores)
  | txBurst (c : Fin n.ethTxCores) (num : Nat)
  | requeue (c : Fin n.ethTxCores)
  | freeOne (c : Fin n.ethTxCores)
  | nicDone (q : Fin n.cfg.ethTxQueues)
  | slowDequeue
  | slowNext (present : Bool)
  | slowEnqueue
  | slowFree

namespace Dataplane

variable {n : Node} [DecidableEq μ]

def init (n : Node) (pool : List μ) (mem : μ → Data) : Dataplane n μ where
  mem:=mem
  pool:=pool
  lost:=[]
  vmRing:=fun _ => []
  ethRing:=fun _ => []
  nic:=fun _ => []
  slowRing:=[]
  rx:=fun _ => .init
  tx:=fun _ => .init
  ethTx:=fun c => .head c.val
  slow:=.next []
  seen:=[]
  delivered:=[]
  sent:=[]

/-- A poll returns at most MAX_PKT_BURST packets, in mbufs that were free. -/
def Fresh (s : Dataplane n μ) (ms : List μ) : Prop :=
  ms≠[] ∧ ms.length ≤ maxPktBurst ∧ ms.Nodup ∧ ∀ m∈ms,m∈s.pool

instance (s : Dataplane n μ) (ms : List μ) : Decidable (s.Fresh ms) :=
  inferInstanceAs (Decidable (_ ∧ _ ∧ _ ∧ _))

/-- The state after a poll and the classification loop: the mbufs with their new bytes have
left the pool, and the thread's arrays are as the loop has filled them. -/
def polled (s : Dataplane n μ) (c : n.Rx) (stores : List (μ × Data)) (dropped : List μ)
    (st : Staging μ) (pc : RxAt μ) (seen : List Seen) : Dataplane n μ := {s with
  mem:=storeAll s.mem stores
  pool:=s.pool.diff (stores.map Prod.fst)
  lost:=s.lost++dropped
  rx:=Function.update s.rx c {s.rx c with pc:=pc,arrays:=⟨st.vmPkts,st.ethPkts⟩}
  seen:=s.seen++seen}

/-- vhost_poll and the classification loop of vhost_rx_loop. -/
def rxPoll (s : Dataplane n μ) (c : Fin n.cfg.vhostRxCores) (vid : Vid) (learning : Bool)
    (pkts : List (Polled μ)) : Option (Dataplane n μ) :=
  match (s.rx (.inl c)).pc with
  | .poll =>
    if s.Fresh (pkts.map Polled.mbuf) then
      (stage n.cfg n.rss (s.rx (.inl c)).arrays
        ⟨vid,learning,pkts,fun _ => 0,fun _ => 0,0⟩).map fun st =>
          s.polled (.inl c) (pkts.map fun p => (p.mbuf,p.data)) (sentTo n.cfg n.rss .drop pkts) st
            (.eth 0 st.dstVids st.slowMsgs) (pkts.map fun p => .vhost p.data p.route)
    else none
  | _ => none

/-- network_poll and the classification loop of eth_rx_loop. -/
def ethPoll (s : Dataplane n μ) (c : Fin n.cfg.ethRxCores) (queue : Nat)
    (snap : Option VdevList) (pkts : List (NicPacket μ)) : Option (Dataplane n μ) :=
  match (s.rx (.inr c)).pc with
  | .poll =>
    if s.Fresh (pkts.map fun p => p.mbuf) then
      (ethStage n.cfg.ip (s.rx (.inr c)).arrays
        ⟨queue,snap,pkts.map NicPacket.toPolled,fun _ => 0,0⟩).map fun st =>
          s.polled (.inr c) (pkts.map fun p => (p.mbuf,p.stored n))
            (ethSentTo n.cfg.ip .drop (pkts.map NicPacket.toPolled)) st
            (.vm st.dstVids st.slowMsgs) (pkts.map fun p => .nic p.vmMac p.data p.route)
    else none
  | _ => none

/-- One round of the loop over the egress queues of vhost_rx_loop: the packets are marked, the
ring takes what it has room for, the rest is freed. -/
def flushEth (s : Dataplane n μ) (c : n.Rx) (congestion : Int) : Option (Dataplane n μ) :=
  let core := s.rx c
  match core.pc with
  | .eth j dstVids msgs =>
    if h : j < n.cfg.ethTxQueues then
      let pkts := core.arrays.ethPkts j
      if pkts.isEmpty then some {s with
        rx:=Function.update s.rx c {core with pc:=.eth (j+1) dstVids msgs}}
      else
        let num := room (s.ethRing ⟨j,h⟩)
        let r := ecnMarkPackets n.mark (pkts.map s.mem) congestion (core.rrEth j)
        some {s with
          mem:=storeAll s.mem (pkts.zip r.1)
          pool:=s.pool++pkts.drop num
          ethRing:=Function.update s.ethRing ⟨j,h⟩ (s.ethRing ⟨j,h⟩++pkts.take num)
          rx:=Function.update s.rx c {core with
            pc:=.eth (j+1) dstVids msgs
            arrays:={core.arrays with ethPkts:=Function.update core.arrays.ethPkts j []}
            rrEth:=Function.update core.rrEth j r.2}}
    else some {s with rx:=Function.update s.rx c {core with pc:=.vm dstVids msgs}}
  | _ => none

/-- What the loop over dst_vids does to the bytes: vhost_rx_loop marks, eth_rx_loop does not. -/
def marked (s : Dataplane n μ) (congestion : Int) (rr : BitVec 32) (pkts : List μ) :
    n.Rx → List Data × BitVec 32
  | .inl _ => ecnMarkPackets n.mark (pkts.map s.mem) congestion rr
  | .inr _ => (pkts.map s.mem,rr)

/-- One round of the loop over dst_vids: what the ring refuses is only counted. -/
def flushVm (s : Dataplane n μ) (c : n.Rx) (congestion : Int) : Option (Dataplane n μ) :=
  let core := s.rx c
  match core.pc with
  | .vm (v::vs) msgs =>
    let pkts := core.arrays.vmPkts v
    if pkts.isEmpty then some {s with rx:=Function.update s.rx c {core with pc:=.slow msgs}}
    else
      let num := room (s.vmRing v)
      let r := s.marked congestion (core.rrVhost v) pkts c
      some {s with
        mem:=storeAll s.mem (pkts.zip r.1)
        lost:=s.lost++pkts.drop num
        vmRing:=Function.update s.vmRing v (s.vmRing v++pkts.take num)
        rx:=Function.update s.rx c {core with
          pc:=.vm vs msgs
          arrays:={core.arrays with vmPkts:=Function.update core.arrays.vmPkts v []}
          rrVhost:=Function.update core.rrVhost v r.2}}
  | .vm [] msgs => some {s with rx:=Function.update s.rx c {core with pc:=.slow msgs}}
  | _ => none

/-- The enqueue to slowpath_ring; messages it refuses are gone with their mbufs. -/
def flushSlow (s : Dataplane n μ) (c : n.Rx) : Option (Dataplane n μ) :=
  match (s.rx c).pc with
  | .slow msgs => some {s with
      lost:=s.lost++arpMbufs (msgs.drop (room s.slowRing))
      slowRing:=s.slowRing++msgs.take (room s.slowRing)
      rx:=Function.update s.rx c {s.rx c with pc:=.poll}}
  | _ => none

/-- What a step of a vhost_tx core frees and delivers, over all VMs. -/
def everyVm {β : Type} (f : Vid → List β) : List β := (List.finRange maxVhosts).flatMap f

def vhostTx (s : Dataplane n μ) (c : Fin n.cfg.vhostTxCores) (plan : List Vid) (a : TxAct) :
    Option (Dataplane n μ) :=
  ((s.tx c).step plan s.vmRing a).map fun o => {s with
    pool:=s.pool++everyVm o.freed
    vmRing:=o.rings
    tx:=Function.update s.tx c o.core
    delivered:=s.delivered++everyVm fun v => (o.delivered v).map fun m => (v,s.mem m)}

/-- Another vhost_tx core is at the same ring. -/
def Contended (s : Dataplane n μ) (c : Fin n.cfg.vhostTxCores) : Prop :=
  ∃ d,d≠c ∧ (s.tx d).next=(s.tx c).next

instance (s : Dataplane n μ) (c : Fin n.cfg.vhostTxCores) : Decidable (s.Contended c) :=
  inferInstanceAs (Decidable (∃ _,_))

/-- A vhost_tx core dequeues from the ring of a VM while another one does. The rings are made
for a single consumer (RING_F_SC_DEQ): the core gets the burst, and the other one still finds it
in the ring. -/
def txRace (s : Dataplane n μ) (c : Fin n.cfg.vhostTxCores) (start : Nat) :
    Option (Dataplane n μ) :=
  if s.Contended c then ((s.tx c).step [] s.vmRing (.visit start start 0)).bind fun o =>
    match o.core.pc with
    | .send _ _ _ => some {s with tx:=Function.update s.tx c o.core}
    | .loop _ => none
  else none

/-- eth_tx_loop dequeues from the ring of its queue and rewrites the headers. -/
def dequeue (s : Dataplane n μ) (c : Fin n.ethTxCores) : Option (Dataplane n μ) :=
  match s.ethTx c with
  | .head i =>
    if h : i < n.cfg.ethTxQueues then
      let q : Fin n.cfg.ethTxQueues := ⟨i,h⟩
      let pkts := (s.ethRing q).take maxPktBurst
      if pkts.isEmpty then some {s with
        ethTx:=Function.update s.ethTx c (.head (i+n.ethTxCores))}
      else some {s with
        mem:=storeAll s.mem (pkts.map fun m => (m,n.txHeader (s.mem m)))
        ethRing:=Function.update s.ethRing q ((s.ethRing q).drop maxPktBurst)
        ethTx:=Function.update s.ethTx c (.send q pkts)}
    else none
  | _ => none

def again (s : Dataplane n μ) (c : Fin n.ethTxCores) : Option (Dataplane n μ) :=
  match s.ethTx c with
  | .head i =>
    if i < n.cfg.ethTxQueues then none
    else some {s with ethTx:=Function.update s.ethTx c (.head c.val)}
  | _ => none

/-- rte_eth_tx_burst takes the first packets. -/
def txBurst (s : Dataplane n μ) (c : Fin n.ethTxCores) (num : Nat) : Option (Dataplane n μ) :=
  match s.ethTx c with
  | .send q pkts =>
    if num ≤ pkts.length then some {s with
      nic:=Function.update s.nic q (s.nic q++pkts.take num)
      ethTx:=Function.update s.ethTx c
        (EgressAt.orHead n.ethTxCores q (pkts.drop num) (.unsent q (pkts.drop num)))
      sent:=s.sent++(pkts.take num).map fun m => (q,s.mem m)}
    else none
  | _ => none

/-- The ring takes back the first of the packets the NIC refused. -/
def requeue (s : Dataplane n μ) (c : Fin n.ethTxCores) : Option (Dataplane n μ) :=
  match s.ethTx c with
  | .unsent q pkts =>
    let num := room (s.ethRing q)
    some {s with
      ethRing:=Function.update s.ethRing q (s.ethRing q++pkts.take num)
      ethTx:=Function.update s.ethTx c
        (EgressAt.orHead n.ethTxCores q (pkts.drop num) (.free q (pkts.drop num)))}
  | _ => none

/-- free_pkts frees the last packet first. -/
def freeOne (s : Dataplane n μ) (c : Fin n.ethTxCores) : Option (Dataplane n μ) :=
  match s.ethTx c with
  | .free q pkts => pkts.getLast?.map fun m => {s with
      pool:=s.pool++[m]
      ethTx:=Function.update s.ethTx c
        (EgressAt.orHead n.ethTxCores q pkts.dropLast (.free q pkts.dropLast))}
  | _ => none

/-- slowpath_loop looks at a message; `present` is vdevs[vid] not being NULL. A request it
does not answer stays unfreed. -/
def slowNext (s : Dataplane n μ) (present : Bool) : Option (Dataplane n μ) :=
  match s.slow with
  | .next (x::batch) =>
    match x.reason with
    | .macLearning => some {s with slow:=.next batch}
    | .arpReq =>
      let d := s.mem x.mbuf
      if present=false ∨ arpOpcode d≠arpOpRequest ∨ arpTip d≠n.cfg.ip then some {s with
        lost:=s.lost++[x.mbuf]
        slow:=.next batch}
      else some {s with
        mem:=Function.update s.mem x.mbuf (arpReply n.cfg d)
        slow:=match x.src with
          | .vhost vid => .enqueue vid x.mbuf batch
          | .eth _ => .free x.mbuf batch}
  | _ => none

/-- The reply goes to the VM's ring if there is room; it is freed afterwards either way. -/
def slowEnqueue (s : Dataplane n μ) : Option (Dataplane n μ) :=
  match s.slow with
  | .enqueue vid m batch =>
    if (s.vmRing vid).length < ringCap then some {s with
      vmRing:=Function.update s.vmRing vid (s.vmRing vid++[m])
      slow:=.free m batch}
    else some {s with slow:=.free m batch}
  | _ => none

def step (s : Dataplane n μ) : DataAct n μ → Option (Dataplane n μ)
  | .rxPoll c vid learning pkts => s.rxPoll c vid learning pkts
  | .ethPoll c queue snap pkts => s.ethPoll c queue snap pkts
  | .flushEth c congestion => s.flushEth c congestion
  | .flushVm c congestion => s.flushVm c congestion
  | .flushSlow c => s.flushSlow c
  | .tx c plan a => s.vhostTx c plan a
  | .txRace c start => s.txRace c start
  | .again c => s.again c
  | .dequeue c => s.dequeue c
  | .txBurst c num => s.txBurst c num
  | .requeue c => s.requeue c
  | .freeOne c => s.freeOne c
  | .nicDone q =>
    match s.nic q with
    | m::rest => some {s with nic:=Function.update s.nic q rest,pool:=s.pool++[m]}
    | [] => none
  | .slowDequeue =>
    match s.slow with
    | .next [] => some {s with
        slowRing:=s.slowRing.drop maxPktBurst
        slow:=.next (s.slowRing.take maxPktBurst)}
    | _ => none
  | .slowNext present => s.slowNext present
  | .slowEnqueue => s.slowEnqueue
  | .slowFree =>
    match s.slow with
    | .free m batch => some {s with pool:=s.pool++[m],slow:=.next batch}
    | _ => none

end Dataplane

end Umanet
