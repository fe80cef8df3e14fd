import Umanet.Framework.Run
import Umanet.Fast.Classify
import Umanet.Network.Flow
import Umanet.Slow.PlanCalc

namespace Umanet

/-- Address of a vhost_plan. -/
abbrev Ptr := Nat

/-- A plan object. Published plans are never written, so the object is its address,
which is all a CAS compares, and its contents. -/
structure PlanCell where
  addr : Ptr
  plan : VhostPlan

/-- A SLOW_MAC_LEARNING message with the bytes of its mbuf. -/
structure LearnMsg where
  vid : Vid
  data : Data

/-- Inside vhost_{rx,tx}_plan_{add,remove}. `search` walks the cores for the shortest
plan, `lookup` for the plan that holds the vid; `cas` holds the address and the
contents read by the load, and the private copy. -/
inductive PlanPc
  | search (i : Nat) (best : Option Nat) (min : Nat)
  | lookup (i : Nat)
  | load (core : Nat)
  | cas (core : Nat) (old : Ptr) (src : VhostPlan) (new : PlanCell)
  | mapWrite (core : Nat)

/-- Inside unlink_vmdq. -/
inductive UnlinkPc
  | test
  | routeTest
  | routeClear (o : Byte)
  | clearMac
  | clearIp
  | mark

/-- The vhost control thread. -/
inductive CtlPc
  | idle
  | newCheck (v : Vid) (p : DevPtr)
  | newLoad (v : Vid) (p : DevPtr)
  | newCas (v : Vid) (p : DevPtr) (ver : Nat) (new : VdevList)
  | add (dir : Dir) (v : Vid) (pc : PlanPc)
  | dstFind (v : Vid)
  | unlink (v : Vid) (p : DevPtr) (pc : UnlinkPc)
  | dstLoad (v : Vid) (p : DevPtr)
  | dstCas (v : Vid) (p : DevPtr) (ver : Nat) (new : VdevList)
  | remove (dir : Dir) (v : Vid) (p : DevPtr) (pc : PlanPc)
  | uninstall (v : Vid) (p : DevPtr)

/-- main before it enters slowpath_loop. -/
inductive MainPc
  | startEth
  | publishList
  | initRoute

/-- Inside link_vmdq and install_eth_rx_flow. -/
inductive LinkPc
  | mac
  | ip
  | vmId
  | routeTest
  | routeSet (o : Byte)
  | ready
  | flowTest
  | flowCreate

/-- The main thread, which becomes the slow path. `snap` is the vdev_list it loaded. -/
inductive SlowPc
  | main (pc : MainPc)
  | loop
  | deq (snap : VdevList)
  | msgs (snap : VdevList) (ms : List LearnMsg)
  | link (snap : VdevList) (ms : List LearnMsg) (p : DevPtr) (d : Data) (pc : LinkPc)
  | calcStart (dir : Dir)
  | calcLoad (dir : Dir) (snap : VdevList) (i : Nat)
  | calcBuild (dir : Dir) (snap : VdevList) (i : Nat) (act : Vid → Bool)
  | calcXchg (dir : Dir) (snap : VdevList) (i : Nat) (new : PlanCell)
  | calcFree (dir : Dir) (snap : VdevList) (i : Nat) (old : Ptr)

/-- An eth_rx core: idle, with a polled burst, or inside it with the vdev_list
snapshot of the burst. -/
inductive EthPc
  | idle
  | polled (frames : List Data)
  | burst (snap : Option VdevList) (frames : List Data)

/-- Shared memory, DPDK's view of the devices, and the program counters. `list` is
NULL until register_vhost_drivers; `listVer` tells published lists apart. -/
structure Sys where
  running : Vid → Bool
  nicUp : Bool
  list : Option VdevList
  listVer : Nat
  devs : DevPtr → VhostDev
  nextDev : DevPtr
  route : Route
  flow : FlowTable
  slowRing : List LearnMsg
  live : Ptr → Bool
  plans : Dir → Nat → PlanCell
  coreMap : Dir → Vid → Nat
  ctl : CtlPc
  slow : SlowPc
  eth : Nat → EthPc

/-- What a step leaves to allocator, hardware, clock and traffic: the address of a
fresh block, a spurious CAS failure, the answer of a flow request, the messages
in the ring, whether a second has passed, the RX statistics. -/
structure Oracle where
  addr : Ptr
  spurious : Bool
  ok : Bool
  num : Nat
  due : Bool
  stats : Vid → VdevRxStats

inductive Action
  | newDevice (v : Vid)
  | destroyDevice (v : Vid)
  | ctl (o : Oracle)
  | slow (o : Oracle)
  | issue (m : LearnMsg)
  | ethPoll (c : Nat) (frames : List Data)
  | ethLoad (c : Nat)
  | ethNext (c : Nat)

/-- Process state when main calls start_threads: the plans exist, vdev_list is NULL
and the route table is still the zeroed static array. -/
def Sys.init (cfg : Config) : Sys where
  running:=fun _ => false
  nicUp:=false
  list:=none
  listVer:=0
  devs:=fun _ => .fresh 0
  nextDev:=0
  route:=.zeroed
  flow:=.empty
  slowRing:=[]
  live:=fun a => decide (a < cfg.vhostRxCores+cfg.vhostTxCores)
  plans:=fun dir i => ⟨match dir with | .rx => i | .tx => cfg.vhostRxCores+i,.zero⟩
  coreMap:=fun _ _ => 0
  ctl:=.idle
  slow:=.main .startEth
  eth:=fun _ => .idle

def setPlan (plans : Dir → Nat → PlanCell) (dir : Dir) (i : Nat) (c : PlanCell) :
    Dir → Nat → PlanCell :=
  fun d j => if d=dir ∧ j=i then c else plans d j

def setCore (m : Dir → Vid → Nat) (dir : Dir) (v : Vid) (i : Nat) : Dir → Vid → Nat :=
  fun d u => if d=dir ∧ u=v then i else m d u

namespace Sys

/-- Load of a core's plan, allocation of the copy, memcpy and edit. -/
def loadCopy (s : Sys) (o : Oracle) (dir : Dir) (core : Nat) (edit : VhostPlan → VhostPlan)
    (k : PlanPc → CtlPc) : Option Sys :=
  if s.live o.addr then none
  else some {s with
    live:=Function.update s.live o.addr true
    ctl:=k (.cas core (s.plans dir core).addr (s.plans dir core).plan
      ⟨o.addr,edit (s.plans dir core).plan⟩)}

/-- atomic_compare_exchange_weak on a core's plan. On failure the copy is freed and
the loop starts over; on success the replaced plan is not freed. -/
def casPlan (s : Sys) (o : Oracle) (dir : Dir) (core : Nat) (old : Ptr) (new : PlanCell)
    (k : PlanPc → CtlPc) : Sys :=
  if (s.plans dir core).addr=old ∧ o.spurious=false then
    {s with plans:=setPlan s.plans dir core new,ctl:=k (.mapWrite core)}
  else {s with live:=Function.update s.live new.addr false,ctl:=k (.load core)}

/-- vhost_rx_plan_add followed by vhost_tx_plan_add. A failure ends new_device. -/
def addStep (cfg : Config) (s : Sys) (o : Oracle) (dir : Dir) (v : Vid) : PlanPc → Option Sys
  | .search i best min =>
    if i < cfg.cores dir then
      if (s.plans dir i).plan.num < min then
        some {s with ctl:=.add dir v (.search (i+1) (some i) (s.plans dir i).plan.num)}
      else some {s with ctl:=.add dir v (.search (i+1) best min)}
    else
      match best with
      | none => some {s with ctl:=.idle}
      | some core => some {s with ctl:=.add dir v (.load core)}
  | .lookup _ => none
  | .load core =>
    if (s.plans dir core).plan.num≥maxVhosts then some {s with ctl:=.idle}
    else s.loadCopy o dir core (·.append v) (.add dir v)
  | .cas core old _ new => some (s.casPlan o dir core old new (.add dir v))
  | .mapWrite core =>
    match dir with
    | .rx => some {s with
        coreMap:=setCore s.coreMap .rx v core
        ctl:=.add .tx v (.search 0 none maxVhosts)}
    | .tx => some {s with
        coreMap:=setCore s.coreMap .tx v core
        running:=Function.update s.running v true
        ctl:=.idle}

/-- vhost_rx_plan_remove followed by vhost_tx_plan_remove. A lookup without a hit
ends destroy_device. -/
def removeStep (cfg : Config) (s : Sys) (o : Oracle) (dir : Dir) (v : Vid) (p : DevPtr) :
    PlanPc → Option Sys
  | .search _ _ _ => none
  | .lookup i =>
    if i < cfg.cores dir then
      if v∈(s.plans dir i).plan.entries then some {s with ctl:=.remove dir v p (.load i)}
      else some {s with ctl:=.remove dir v p (.lookup (i+1))}
    else some {s with ctl:=.idle}
  | .load core => s.loadCopy o dir core (·.remove v) (.remove dir v p)
  | .cas core old _ new => some (s.casPlan o dir core old new (.remove dir v p))
  | .mapWrite _ =>
    match dir with
    | .rx => some {s with
        coreMap:=setCore s.coreMap .rx v 0
        ctl:=.remove .tx v p (.lookup 0)}
    | .tx => some {s with coreMap:=setCore s.coreMap .tx v 0,ctl:=.uninstall v p}

def setDev (s : Sys) (p : DevPtr) (dev : VhostDev) : Sys :=
  {s with devs:=Function.update s.devs p dev}

def unlinkStep (s : Sys) (v : Vid) (p : DevPtr) : UnlinkPc → Sys
  | .test =>
    if (s.devs p).ready=.rx then {s with ctl:=.unlink v p .routeTest}
    else {s with ctl:=.unlink v p .mark}
  | .routeTest =>
    if s.route (octet (s.devs p).ip)=-1 then {s with ctl:=.unlink v p .clearMac}
    else {s with ctl:=.unlink v p (.routeClear (octet (s.devs p).ip))}
  | .routeClear b => {s with route:=Function.update s.route b (-1),ctl:=.unlink v p .clearMac}
  | .clearMac =>
    {s.setDev p {s.devs p with mac:=fun _ => 0} with ctl:=.unlink v p .clearIp}
  | .clearIp => {s.setDev p {s.devs p with ip:=0} with ctl:=.unlink v p .mark}
  | .mark => {s.setDev p ((s.devs p).setReady .safeRemove) with ctl:=.dstLoad v p}

/-- One step of the control thread; `L` is the list it can load. -/
def ctlStep (cfg : Config) (s : Sys) (L : VdevList) (o : Oracle) : Option Sys :=
  match s.ctl with
  | .idle => none
  | .newCheck v p =>
    if L.num≥maxVhosts then some {s with ctl:=.idle} else some {s with ctl:=.newLoad v p}
  | .newLoad v p =>
    if L.num≥maxVhosts then some {s with ctl:=.idle}
    else some {s with ctl:=.newCas v p s.listVer (L.insert v p)}
  | .newCas v p ver new =>
    if s.listVer=ver ∧ o.spurious=false then
      some {s with
        list:=some new
        listVer:=s.listVer+1
        ctl:=.add .rx v (.search 0 none maxVhosts)}
    else some {s with ctl:=.newLoad v p}
  | .add dir v pc => s.addStep cfg o dir v pc
  | .dstFind v =>
    match L.vdevs v with
    | none => some {s with ctl:=.idle}
    | some p => some {s with ctl:=.unlink v p .test}
  | .unlink v p pc => some (s.unlinkStep v p pc)
  | .dstLoad v p =>
    match L.vdevs v with
    | none => some {s with ctl:=.idle}
    | some q =>
      if (s.devs q).ready=.safeRemove then
        some {s with ctl:=.dstCas v p s.listVer (L.remove v)}
      else some {s with ctl:=.idle}
  | .dstCas v p ver new =>
    if s.listVer=ver ∧ o.spurious=false then
      some {s with
        list:=some new
        listVer:=s.listVer+1
        ctl:=.remove .rx v p (.lookup 0)}
    else some {s with ctl:=.dstLoad v p}
  | .remove dir v p pc => s.removeStep cfg o dir v p pc
  | .uninstall _ p => some {s with flow:=(s.flow.uninstall (s.devs p) o.ok).2,ctl:=.idle}

/-- link_vmdq and install_eth_rx_flow on device p. -/
def linkStep (cfg : Config) (s : Sys) (o : Oracle) (snap : VdevList) (ms : List LearnMsg)
    (p : DevPtr) (d : Data) : LinkPc → Sys
  | .mac => {s.setDev p ((s.devs p).learnMac d) with slow:=.link snap ms p d .ip}
  | .ip => {s.setDev p ((s.devs p).learnIp d) with slow:=.link snap ms p d .vmId}
  | .vmId => {s.setDev p ((s.devs p).learnVmId d) with slow:=.link snap ms p d .routeTest}
  | .routeTest =>
    if s.route (octet (s.devs p).ip)≠-1 then {s with slow:=.link snap ms p d .ready}
    else {s with slow:=.link snap ms p d (.routeSet (octet (s.devs p).ip))}
  | .routeSet b => {s with
      route:=Function.update s.route b (s.devs p).vid.val
      slow:=.link snap ms p d .ready}
  | .ready => {s.setDev p ((s.devs p).setReady .rx) with slow:=.link snap ms p d .flowTest}
  | .flowTest =>
    if (s.flow.ethRxFlows (s.devs p).vmId).isSome then {s with slow:=.msgs snap ms}
    else {s with slow:=.link snap ms p d .flowCreate}
  | .flowCreate => {s with
      flow:=(s.flow.install cfg.ethRxQueues p (s.devs p) o.ok).2
      slow:=.msgs snap ms}

/-- calculate_vhost_rx_plan and calculate_vhost_tx_plan, core by core: load and scan,
rebuild with the core map as it is then, exchange and free. -/
def calcStep (cfg : Config) (s : Sys) (L : VdevList) (o : Oracle) : SlowPc → Option Sys
  | .calcStart dir => some {s with slow:=.calcLoad dir L 0}
  | .calcLoad dir snap i =>
    if i < cfg.cores dir then
      let scan := scanPlan dir snap o.stats (s.plans dir i).plan
      some {s with slow:=.calcBuild dir snap i scan.isActive}
    else
      match dir with
      | .rx => some {s with slow:=.calcStart .tx}
      | .tx => some {s with slow:=.loop}
  | .calcBuild dir snap i act =>
    if s.live o.addr then none
    else some {s with
      live:=Function.update s.live o.addr true
      slow:=.calcXchg dir snap i ⟨o.addr,calculatePlan snap (s.coreMap dir) i act⟩}
  | .calcXchg dir snap i new => some {s with
      plans:=setPlan s.plans dir i new
      slow:=.calcFree dir snap i (s.plans dir i).addr}
  | .calcFree dir snap i old => some {s with
      live:=Function.update s.live old false
      slow:=.calcLoad dir snap (i+1)}
  | _ => none

/-- main up to slowpath_loop. -/
def mainStep (s : Sys) : MainPc → Sys
  | .startEth => {s with nicUp:=true,slow:=.main .publishList}
  | .publishList => {s with
      list:=some .empty
      listVer:=s.listVer+1
      slow:=.main .initRoute}
  | .initRoute => {s with route:=initRouteTable,slow:=.loop}

def slowStep (cfg : Config) (s : Sys) (o : Oracle) : Option Sys :=
  match s.slow with
  | .main pc => some (s.mainStep pc)
  | .loop => s.list.map fun L => {s with slow:=.deq L}
  | .deq snap =>
    if o.num ≤ maxPktBurst then
      some {s with slow:=.msgs snap (s.slowRing.take o.num),slowRing:=s.slowRing.drop o.num}
    else none
  | .msgs _ [] =>
    if o.due then some {s with slow:=.calcStart .rx} else some {s with slow:=.loop}
  | .msgs snap (m::ms) =>
    match snap.vdevs m.vid with
    | none => some {s with slow:=.msgs snap ms}
    | some p => some {s with slow:=.link snap ms p m.data .mac}
  | .link snap ms p d pc => some (s.linkStep cfg o snap ms p d pc)
  | pc => s.list.bind fun L => s.calcStep cfg L o pc

def setEth (s : Sys) (c : Nat) (pc : EthPc) : Sys :=
  {s with eth:=Function.update s.eth c pc}

/-- The system: any thread may take its next step. Callbacks of DPDK come when the
control thread is free, after registration, and alternate for each vid. -/
def step (cfg : Config) (s : Sys) : Action → Option Sys
  | .newDevice v =>
    match s.ctl,s.slow with
    | .idle,.main _ => none
    | .idle,_ =>
      if s.running v then none
      else some {s with
        devs:=Function.update s.devs s.nextDev (.fresh v)
        nextDev:=s.nextDev+1
        ctl:=.newCheck v s.nextDev}
    | _,_ => none
  | .destroyDevice v =>
    match s.ctl with
    | .idle =>
      if s.running v then
        some {s with running:=Function.update s.running v false,ctl:=.dstFind v}
      else none
    | _ => none
  | .ctl o => s.list.bind fun L => s.ctlStep cfg L o
  | .slow o => s.slowStep cfg o
  | .issue m => some {s with slowRing:=s.slowRing++[m]}
  | .ethPoll c frames =>
    match s.eth c with
    | .idle =>
      if c < cfg.ethRxCores ∧ s.nicUp ∧ frames≠[] ∧ frames.length ≤ maxPktBurst then
        some (s.setEth c (.polled frames))
      else none
    | _ => none
  | .ethLoad c =>
    match s.eth c with
    | .polled frames => some (s.setEth c (.burst s.list frames))
    | _ => none
  | .ethNext c =>
    match s.eth c with
    | .burst _ [] => some (s.setEth c .idle)
    | .burst snap (_::fs) => some (s.setEth c (.burst snap fs))
    | _ => none

def planOf (s : Sys) (dir : Dir) (i : Nat) : VhostPlan := (s.plans dir i).plan

section
variable {cfg : Config} {s t : Sys}

theorem setPlan_of_ne {plans : Dir → Nat → PlanCell} {dir d : Dir} {c : Nat} {new : PlanCell}
    (h : d≠dir) : setPlan plans dir c new d=plans d := by
  funext i
  simp [setPlan,h]

theorem setCore_of_ne {m : Dir → Vid → Nat} {dir d : Dir} {v u : Vid} {c : Nat}
    (h : ¬(d=dir ∧ u=v)) : setCore m dir v c d u=m d u := by
  simp [setCore,h]

theorem planOf_setPlan {dir : Dir} {c : Nat} {new : PlanCell}
    (hp : t.plans=setPlan s.plans dir c new) (d : Dir) (i : Nat) :
    t.planOf d i=if d=dir ∧ i=c then new.plan else s.planOf d i := by
  simp only [planOf,hp,setPlan]
  split <;> rfl

theorem step_newDevice {v : Vid} (h : s.step cfg (.newDevice v)=some t) :
    s.ctl=.idle ∧ (∀ pc,s.slow≠.main pc) ∧ s.running v=false ∧
      t={s with
        devs:=Function.update s.devs s.nextDev (.fresh v)
        nextDev:=s.nextDev+1
        ctl:=.newCheck v s.nextDev} := by
  simp only [step] at h
  split at h
  · simp at h
  · rename_i hidle hmain
    split at h
    · simp at h
    · rename_i hr
      exact ⟨hidle,hmain,by simpa using hr,(Option.some.inj h).symm⟩
  · simp at h

theorem step_destroyDevice {v : Vid} (h : s.step cfg (.destroyDevice v)=some t) :
    s.ctl=.idle ∧ s.running v=true ∧
      t={s with running:=Function.update s.running v false,ctl:=.dstFind v} := by
  simp only [step] at h
  split at h
  · rename_i hidle
    split at h
    · rename_i hr
      exact ⟨hidle,hr,(Option.some.inj h).symm⟩
    · simp at h
  · simp at h

theorem step_ethPoll {c : Nat} {frames : List Data} (h : s.step cfg (.ethPoll c frames)=some t) :
    s.eth c=.idle ∧ t=s.setEth c (.polled frames) := by
  simp only [step] at h
  split at h
  · split at h
    · exact ⟨‹_›,(Option.some.inj h).symm⟩
    · simp at h
  · simp at h

theorem step_ethLoad {c : Nat} (h : s.step cfg (.ethLoad c)=some t) :
    ∃ frames,s.eth c=.polled frames ∧ t=s.setEth c (.burst s.list frames) := by
  simp only [step] at h
  split at h
  · exact ⟨_,‹_›,(Option.some.inj h).symm⟩
  · simp at h

theorem step_ethNext {c : Nat} (h : s.step cfg (.ethNext c)=some t) :
    ∃ snap frames,s.eth c=.burst snap frames ∧
      (t=s.setEth c .idle ∨ t=s.setEth c (.burst snap frames.tail)) := by
  simp only [step] at h
  split at h
  · exact ⟨_,_,‹_›,Or.inl (Option.some.inj h).symm⟩
  · exact ⟨_,_,‹_›,Or.inr (Option.some.inj h).symm⟩
  · simp at h

/-- A step that leaves the tables alone: device list, devices, routes, flows, the
slow path's ring and the readers. -/
structure TableFrame (s t : Sys) : Prop where
  list : t.list=s.list
  listVer : t.listVer=s.listVer
  devs : t.devs=s.devs
  nextDev : t.nextDev=s.nextDev
  route : t.route=s.route
  flow : t.flow=s.flow
  slowRing : t.slowRing=s.slowRing
  eth : t.eth=s.eth

theorem addStep_frame {o : Oracle} {dir : Dir} {v : Vid} {pc : PlanPc}
    (h : s.addStep cfg o dir v pc=some t) :
    TableFrame s t ∧ t.slow=s.slow ∧ (t.ctl=.idle ∨ ∃ d pc',t.ctl=.add d v pc') := by
  have frame : ∀ live plans coreMap running ctl,TableFrame s {s with
      live:=live,plans:=plans,coreMap:=coreMap,running:=running,ctl:=ctl} :=
    fun _ _ _ _ _ => ⟨rfl,rfl,rfl,rfl,rfl,rfl,rfl,rfl⟩
  cases pc with
  | search i best min =>
    simp only [addStep] at h
    split at h
    · split at h <;> obtain rfl := Option.some.inj h <;> exact ⟨frame _ _ _ _ _,rfl,.inr ⟨_,_,rfl⟩⟩
    · split at h <;> obtain rfl := Option.some.inj h
      · exact ⟨frame _ _ _ _ _,rfl,.inl rfl⟩
      · exact ⟨frame _ _ _ _ _,rfl,.inr ⟨_,_,rfl⟩⟩
  | lookup i => simp [addStep] at h
  | load c =>
    simp only [addStep,loadCopy] at h
    split at h
    · have h' := Option.some.inj h
      subst h'
      exact ⟨frame _ _ _ _ _,rfl,.inl rfl⟩
    · split at h
      · simp at h
      · have h' := Option.some.inj h
        subst h'
        exact ⟨frame _ _ _ _ _,rfl,.inr ⟨_,_,rfl⟩⟩
  | cas c old src new =>
    simp only [addStep,casPlan] at h
    split at h <;> obtain rfl := Option.some.inj h <;> exact ⟨frame _ _ _ _ _,rfl,.inr ⟨_,_,rfl⟩⟩
  | mapWrite c =>
    cases dir <;> obtain rfl := Option.some.inj h
    · exact ⟨frame _ _ _ _ _,rfl,.inr ⟨_,_,rfl⟩⟩
    · exact ⟨frame _ _ _ _ _,rfl,.inl rfl⟩

theorem removeStep_frame {o : Oracle} {dir : Dir} {v : Vid} {p : DevPtr} {pc : PlanPc}
    (h : s.removeStep cfg o dir v p pc=some t) :
    TableFrame s t ∧ t.slow=s.slow ∧
      (t.ctl=.idle ∨ t.ctl=.uninstall v p ∨ ∃ d pc',t.ctl=.remove d v p pc') := by
  have frame : ∀ live plans coreMap ctl,TableFrame s {s with
      live:=live,plans:=plans,coreMap:=coreMap,ctl:=ctl} :=
    fun _ _ _ _ => ⟨rfl,rfl,rfl,rfl,rfl,rfl,rfl,rfl⟩
  cases pc with
  | search i best min => simp [removeStep] at h
  | lookup i =>
    simp only [removeStep] at h
    split at h
    · split at h <;> obtain rfl := Option.some.inj h <;>
        exact ⟨frame _ _ _ _,rfl,.inr (.inr ⟨_,_,rfl⟩)⟩
    · have h' := Option.some.inj h
      subst h'
      exact ⟨frame _ _ _ _,rfl,.inl rfl⟩
  | load c =>
    simp only [removeStep,loadCopy] at h
    split at h
    · simp at h
    · have h' := Option.some.inj h
      subst h'
      exact ⟨frame _ _ _ _,rfl,.inr (.inr ⟨_,_,rfl⟩)⟩
  | cas c old src new =>
    simp only [removeStep,casPlan] at h
    split at h <;> obtain rfl := Option.some.inj h <;>
      exact ⟨frame _ _ _ _,rfl,.inr (.inr ⟨_,_,rfl⟩)⟩
  | mapWrite c =>
    cases dir <;> obtain rfl := Option.some.inj h
    · exact ⟨frame _ _ _ _,rfl,.inr (.inr ⟨_,_,rfl⟩)⟩
    · exact ⟨frame _ _ _ _,rfl,.inr (.inl rfl)⟩

theorem calcStep_frame {L : VdevList} {o : Oracle} {pc : SlowPc}
    (h : s.calcStep cfg L o pc=some t) :
    TableFrame s t ∧ t.ctl=s.ctl ∧ (t.slow=.loop ∨ (∃ dir,t.slow=.calcStart dir) ∨
      (∃ dir snap i,t.slow=.calcLoad dir snap i) ∨ (∃ dir snap i act,t.slow=.calcBuild dir snap i act) ∨
      (∃ dir snap i new,t.slow=.calcXchg dir snap i new) ∨
      ∃ dir snap i old,t.slow=.calcFree dir snap i old) := by
  have frame : ∀ live plans slow,TableFrame s {s with live:=live,plans:=plans,slow:=slow} :=
    fun _ _ _ => ⟨rfl,rfl,rfl,rfl,rfl,rfl,rfl,rfl⟩
  cases pc with
  | calcStart dir =>
    have h' := Option.some.inj h
    subst h'
    exact ⟨frame _ _ _,rfl,.inr (.inr (.inl ⟨_,_,_,rfl⟩))⟩
  | calcLoad dir snap i =>
    simp only [calcStep] at h
    split at h
    · have h' := Option.some.inj h
      subst h'
      exact ⟨frame _ _ _,rfl,.inr (.inr (.inr (.inl ⟨_,_,_,_,rfl⟩)))⟩
    · cases dir <;> obtain rfl := Option.some.inj h
      · exact ⟨frame _ _ _,rfl,.inr (.inl ⟨_,rfl⟩)⟩
      · exact ⟨frame _ _ _,rfl,.inl rfl⟩
  | calcBuild dir snap i act =>
    simp only [calcStep] at h
    split at h
    · simp at h
    · have h' := Option.some.inj h
      subst h'
      exact ⟨frame _ _ _,rfl,.inr (.inr (.inr (.inr (.inl ⟨_,_,_,_,rfl⟩))))⟩
  | calcXchg dir snap i new =>
    have h' := Option.some.inj h
    subst h'
    exact ⟨frame _ _ _,rfl,.inr (.inr (.inr (.inr (.inr ⟨_,_,_,_,rfl⟩))))⟩
  | calcFree dir snap i old =>
    have h' := Option.some.inj h
    subst h'
    exact ⟨frame _ _ _,rfl,.inr (.inr (.inl ⟨_,_,_,rfl⟩))⟩
  | _ => simp [calcStep] at h

end

end Sys

/-- Concrete runs let every step succeed: block a is fresh, no CAS fails, a second has
passed, and n messages are taken. -/
def oracleOf (a : Ptr) (n : Nat) : Oracle where
  addr:=a
  spurious:=false
  ok:=true
  num:=n
  due:=true
  stats:=fun _ => ⟨fun _ => 0,fun _ => 0,fun _ => 0,0⟩

/-- n steps of the control thread; its allocations get the blocks from a on. -/
def ctlSteps (a n : Nat) : List Action :=
  (List.range n).map fun i => .ctl (oracleOf (a+i) 0)

/-- n steps of the slow path, taking k messages at a time. -/
def slowSteps (a n k : Nat) : List Action :=
  (List.range n).map fun i => .slow (oracleOf (a+i) k)

end Umanet
