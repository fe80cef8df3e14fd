import Umanet.Fast.VhostRx
import Umanet.Network.Flow
import Umanet.Network.Startup
import Umanet.System.Launch

namespace Umanet

open Framework

/-- The counts of config_t as the command line gives them: any values, zero by default. -/
structure BootConfig where
  ethRxCores : Nat
  ethTxCores : Nat
  vhostRxCores : Nat
  vhostTxCores : Nat
  ethRxQueues : Nat
  ethTxQueues : Nat

namespace BootConfig

/-- `global->fp_cores` -/
def fpCores (cfg : BootConfig) : Nat :=
  (cfg.ethRxCores+cfg.ethTxCores+cfg.vhostRxCores+cfg.vhostTxCores)%2^16

/-- common_thread, for counts that have not been checked. -/
def commonThread (cfg : BootConfig) (arg : Nat) : Option (Kind × Int) :=
  let id : Int := (arg%2^16 : Nat)
  if id ≤ cfg.ethRxCores then some (.ethRx,id-1)
  else if id ≤ cfg.ethRxCores+cfg.ethTxCores then some (.ethTx,id-cfg.ethRxCores-1)
  else if id ≤ cfg.ethRxCores+cfg.ethTxCores+cfg.vhostRxCores then
    some (.vhostRx,id-cfg.ethRxCores-cfg.ethTxCores-1)
  else if id ≤ cfg.ethRxCores+cfg.ethTxCores+cfg.vhostRxCores+cfg.vhostTxCores then
    some (.vhostTx,id-cfg.ethRxCores-cfg.ethTxCores-cfg.vhostRxCores-1)
  else none

end BootConfig

/-- Where main is: before one of its calls, in the loop of start_threads with the number of
threads launched and the worker lcores that are left, in its wait loop, before
rte_eth_dev_start in network_start_eth, at the call of register_vhost_drivers, or gone. -/
inductive BootPc
  | topology
  | rings
  | ctxs
  | plans
  | network
  | threads
  | launch (launched : Nat) (workers : List Nat)
  | wait
  | startEth
  | register
  | exit
  deriving DecidableEq

/-- main, the threads that run with the index of their context, the eth_tx and eth_rx threads
in their queue set-up, and the length of `eth_tx_queue_rings`. -/
structure Boot where
  pc : BootPc
  threads : List (Kind × Nat)
  tx : QueueSide
  rx : QueueSide
  ringSlots : Nat

/-- The next step of main, with whether the calls in it succeed, and of the threads. -/
inductive BootAct
  | main (ok : Bool)
  | tx (c : Nat) (ok : Bool)
  | rxPass (c : Nat)
  | rx (c : Nat) (ok : Bool)

/-- rte_calloc of n elements: no pointer for zero elements. -/
def rteCalloc (ok : Bool) (n : Nat) : Bool := ok && n≠0

namespace Boot

def init : Boot := ⟨.topology,[],.passed 0,.passed 0,0⟩

def goto (s : Boot) (ok : Bool) (pc : BootPc) : Boot := {s with pc:=if ok then pc else .exit}

/-- common_thread is started with an id; a wrong id aborts the process. -/
def spawn (cfg : BootConfig) (s : Boot) (id : Nat) (next : BootPc) : Boot :=
  match cfg.commonThread id with
  | none => {s with pc:=.exit}
  | some (k,i) => {s with
      pc:=next
      threads:=s.threads++[(k,i.toNat)]
      tx:=if k=.ethTx then {s.tx with pc:=Function.update s.tx.pc i.toNat (.head i.toNat)} else s.tx}

/-- What main does next. The contexts its wait loop looks at are those init_dataplane_ctxs has
filled in; the spin loop of network_start_eth is a step that is not enabled. -/
def mainStep (cfg : BootConfig) (workers : List Nat) (s : Boot) (ok : Bool) : Option Boot :=
  match s.pc with
  | .topology => some (s.goto (ok && !decide (cfg.ethTxQueues>maxEthTxQueues)) .rings)
  | .rings => some {s.goto ok .ctxs with ringSlots:=cfg.ethTxQueues}
  | .ctxs => some (s.goto (rteCalloc ok cfg.ethRxCores && rteCalloc ok cfg.ethTxCores &&
      rteCalloc ok cfg.vhostRxCores && rteCalloc ok cfg.vhostTxCores) .plans)
  | .plans => some (s.goto (rteCalloc ok cfg.vhostRxCores && rteCalloc ok cfg.vhostTxCores) .network)
  | .network => some (s.goto ok .threads)
  | .threads => some (s.goto (!decide (workers.length+1 < cfg.fpCores+1)) (.launch 0 workers))
  | .launch _ [] => some (s.goto true .wait)
  | .launch launched (_::rest) =>
    if launched < cfg.fpCores then
      if ok then some (s.spawn cfg (launched+1) (.launch ((launched+1)%2^16) rest))
      else some (s.goto false .exit)
    else some (s.goto true (.launch launched rest))
  | .wait => some (s.goto true .startEth)
  | .startEth => if s.rx.initDone < cfg.ethRxCores then none else some (s.goto ok .register)
  | .register => none
  | .exit => none

def step (cfg : BootConfig) (workers : List Nat) (s : Boot) : BootAct → Option Boot
  | .main ok => s.mainStep cfg workers ok
  | .tx c ok =>
    if (.ethTx,c)∈s.threads then
      (s.tx.step cfg.ethTxCores cfg.ethTxQueues c ok).map fun S => {s with tx:=S}
    else none
  | .rxPass c =>
    if (.ethRx,c)∈s.threads ∧ s.rx.pc c=.wait then
      if s.tx.initDone < cfg.ethTxCores then none
      else some {s with rx:={s.rx with pc:=Function.update s.rx.pc c (.head c)}}
    else none
  | .rx c ok =>
    if (.ethRx,c)∈s.threads then
      (s.rx.step cfg.ethRxCores cfg.ethRxQueues c ok).map fun S => {s with rx:=S}
    else none

end Boot

/-- flow_pick_tx with the remainder as C has it: none is a division by zero. -/
def flowPickTxChecked (rss : Softrss) (ethTxQueues : Nat) (k : FlowKey) : Option Nat :=
  if ethTxQueues=0 then none else some (flowPickTx rss ethTxQueues k)

/-- The queue install_eth_rx_flow computes; none is a division by zero. -/
def flowQueueChecked (vmId : Int) (ethRxQueues : Nat) : Option Nat :=
  if ethRxQueues=0 then none else some (FlowTable.queueOf vmId ethRxQueues)

/-- The counts of a process that is known to be sound, as unchecked ones. -/
def CoreConfig.boot (cfg : CoreConfig) : BootConfig :=
  ⟨cfg.ethRxCores,cfg.ethTxCores,cfg.vhostRxCores,cfg.vhostTxCores,cfg.ethRxQueues,cfg.ethTxQueues⟩

theorem CoreConfig.boot_commonThread (cfg : CoreConfig) (arg : Nat) :
    cfg.boot.commonThread arg=Umanet.commonThread cfg arg := rfl

namespace QueueSide

variable {cores queues : Nat} {S T : QueueSide}

/-- A queue that is being counted exists, and so does one that has been counted. -/
structure Counted (queues : Nat) (S : QueueSide) : Prop where
  counting : ∀ c i,S.pc c=.count i → i < queues
  counted : 0 < S.initDone → 0 < queues

theorem passed_counted (queues m : Nat) : (passed m).Counted queues where
  counting := by
    intro c i h
    simp only [passed] at h
    split at h <;> cases h
  counted := by
    intro h
    exact absurd h (Nat.lt_irrefl 0)

theorem Counted.move (h : S.Counted queues) {c : Nat} {x : QueuePc}
    (hx : ∀ i,x=.count i → i < queues) :
    ({S with pc:=Function.update S.pc c x} : QueueSide).Counted queues where
  counting := by
    intro d i hd
    change Function.update S.pc c x d=.count i at hd
    by_cases hdc : d=c
    · subst hdc
      rw [Function.update_self] at hd
      exact hx i hd
    · rw [Function.update_of_ne hdc] at hd
      exact h.counting d i hd
  counted := h.counted

theorem Counted.step (h : S.Counted queues) {c : Nat} {ok : Bool}
    (ht : S.step cores queues c ok=some T) : T.Counted queues ∧ S.initDone ≤ T.initDone ∧
      S.pc c≠.wait ∧ ∀ d,d≠c → T.pc d=S.pc d := by
  unfold QueueSide.step at ht
  split at ht
  · next i hpc =>
    split at ht
    · next hi =>
      split at ht
      · have ht' := Option.some.inj ht
        subst ht'
        refine ⟨⟨(h.move (c:=c) (x:=.count i) ?_).counting,h.counted⟩,le_rfl,by simp [hpc],
          fun d hd => Function.update_of_ne hd ..⟩
        rintro j ⟨⟩
        exact hi
      · have ht' := Option.some.inj ht
        subst ht'
        exact ⟨h.move nofun,le_rfl,by simp [hpc],fun d hd => Function.update_of_ne hd ..⟩
    · cases ht
  · next i hpc =>
    have ht' := Option.some.inj ht
    subst ht'
    refine ⟨⟨(h.move (c:=c) (x:=.head (i+cores)) ?_).counting,fun _ => ?_⟩,Nat.le_succ _,by simp [hpc],
      fun d hd => Function.update_of_ne hd ..⟩
    · intro j hj
      cases hj
    · exact Nat.zero_lt_of_lt (h.counting c i hpc)
  · cases ht

end QueueSide

/-- How many of the calls that set limits main has behind it. -/
def BootPc.stage : BootPc → Nat
  | .topology => 0
  | .rings => 1
  | .ctxs => 2
  | .plans => 3
  | .network => 3
  | .threads => 3
  | .launch _ _ => 3
  | .wait => 3
  | .startEth => 3
  | .register => 3
  | .exit => 0

namespace Boot

variable {cfg : BootConfig} {workers : List Nat} {s t : Boot}

/-- What main's calls have checked so far, and what the counters of the queue set-up
witness. -/
structure Inv (cfg : BootConfig) (s : Boot) : Prop where
  topology : 1 ≤ s.pc.stage → cfg.ethTxQueues ≤ maxEthTxQueues
  rings : 2 ≤ s.pc.stage → s.ringSlots=cfg.ethTxQueues
  ctxs : 3 ≤ s.pc.stage → 0 < cfg.ethRxCores ∧ 0 < cfg.ethTxCores
  tx : s.tx.Counted cfg.ethTxQueues
  rx : s.rx.Counted cfg.ethRxQueues
  gate : (∃ c,s.rx.pc c≠.wait) → ¬s.tx.initDone < cfg.ethTxCores
  passed : 0 < s.rx.initDone → ¬s.tx.initDone < cfg.ethTxCores
  start : s.pc=.register → ¬s.rx.initDone < cfg.ethRxCores

theorem init_inv (cfg : BootConfig) : Inv cfg init where
  topology := fun h => absurd h (by decide)
  rings := fun h => absurd h (by decide)
  ctxs := fun h => absurd h (by decide)
  tx := QueueSide.passed_counted _ _
  rx := QueueSide.passed_counted _ _
  gate := by
    rintro ⟨c,hc⟩
    simp [init,QueueSide.passed] at hc
  passed := fun h => absurd h (Nat.lt_irrefl 0)
  start := by
    intro h
    cases h

/-- A step of main to another place keeps the invariant when the checks in between have
passed. -/
theorem Inv.jump (h : Inv cfg s) {pc : BootPc}
    (htop : 1 ≤ pc.stage → cfg.ethTxQueues ≤ maxEthTxQueues)
    (hrings : 2 ≤ pc.stage → s.ringSlots=cfg.ethTxQueues)
    (hctxs : 3 ≤ pc.stage → 0 < cfg.ethRxCores ∧ 0 < cfg.ethTxCores)
    (hstart : pc=.register → ¬s.rx.initDone < cfg.ethRxCores) : Inv cfg {s with pc:=pc} where
  topology := htop
  rings := hrings
  ctxs := hctxs
  tx := h.tx
  rx := h.rx
  gate := h.gate
  passed := h.passed
  start := hstart

theorem Inv.exit (h : Inv cfg s) : Inv cfg {s with pc:=.exit} :=
  h.jump (fun h => absurd h (by decide)) (fun h => absurd h (by decide))
    (fun h => absurd h (by decide)) nofun

theorem Inv.pass (h : Inv cfg s) {ok : Bool} {pc : BootPc} (ht : some (s.goto ok pc)=some t)
    (hpc : pc.stage ≤ s.pc.stage) (hstart : pc=.register → ¬s.rx.initDone < cfg.ethRxCores) :
    Inv cfg t := by
  have ht' := Option.some.inj ht
  subst ht'
  cases ok with
  | false => exact h.exit
  | true =>
    exact h.jump (fun hp => h.topology (hp.trans hpc)) (fun hp => h.rings (hp.trans hpc))
      (fun hp => h.ctxs (hp.trans hpc)) hstart

theorem Inv.spawn (h : Inv cfg s) (id : Nat) {next : BootPc} (hpc : next.stage ≤ s.pc.stage)
    (hstart : next≠.register) : Inv cfg (s.spawn cfg id next) := by
  unfold Boot.spawn
  split
  · exact h.exit
  · next k i _ =>
    have hj := h.pass (show some (s.goto true next)=some _ from rfl) hpc fun he => absurd he hstart
    refine ⟨hj.topology,hj.rings,hj.ctxs,?_,hj.rx,?_,?_,hj.start⟩
    · dsimp only
      split
      · exact h.tx.move nofun
      · exact h.tx
    · dsimp only
      split <;> exact h.gate
    · dsimp only
      split <;> exact h.passed

theorem rteCalloc_pos {ok : Bool} {n : Nat} (h : rteCalloc ok n=true) : 0 < n := by
  simp only [rteCalloc,Bool.and_eq_true,decide_eq_true_eq] at h
  exact Nat.pos_of_ne_zero h.2

theorem Inv.mainStep (h : Inv cfg s) {ok : Bool} (ht : s.mainStep cfg workers ok=some t) :
    Inv cfg t := by
  unfold Boot.mainStep at ht
  split at ht
  · next hpc =>
    have ht' := Option.some.inj ht
    subst ht'
    cases hc : ok && !decide (cfg.ethTxQueues>maxEthTxQueues) with
    | false => exact h.exit
    | true =>
      simp only [Bool.and_eq_true,Bool.not_eq_true',decide_eq_false_iff_not] at hc
      exact h.jump (fun _ => Nat.le_of_not_lt hc.2) (fun h => absurd h (by decide))
        (fun h => absurd h (by decide)) nofun
  · next hpc =>
    have ht' := Option.some.inj ht
    subst ht'
    have htop := h.topology (by simp [hpc,BootPc.stage])
    cases ok with
    | false => exact ⟨h.exit.topology,fun _ => rfl,h.exit.ctxs,h.tx,h.rx,h.gate,h.passed,nofun⟩
    | true =>
      exact ⟨fun _ => htop,fun _ => rfl,fun h => absurd h (by simp [goto,BootPc.stage]),h.tx,h.rx,
        h.gate,h.passed,nofun⟩
  · next hpc =>
    have ht' := Option.some.inj ht
    subst ht'
    cases hc : rteCalloc ok cfg.ethRxCores && rteCalloc ok cfg.ethTxCores &&
        rteCalloc ok cfg.vhostRxCores && rteCalloc ok cfg.vhostTxCores with
    | false => exact h.exit
    | true =>
      -- the arrays of contexts have been allocated, so they are not empty
      simp only [Bool.and_eq_true] at hc
      exact h.jump (fun _ => h.topology (by simp [hpc,BootPc.stage]))
        (fun _ => h.rings (by simp [hpc,BootPc.stage]))
        (fun _ => ⟨rteCalloc_pos hc.1.1.1,rteCalloc_pos hc.1.1.2⟩) nofun
  · next hpc =>
    exact h.pass ht (by simp [hpc,BootPc.stage]) nofun
  · next hpc =>
    exact h.pass ht (by simp [hpc,BootPc.stage]) nofun
  · next hpc =>
    exact h.pass ht (by simp [hpc,BootPc.stage]) nofun
  · next hpc =>
    exact h.pass ht (by simp [hpc,BootPc.stage]) nofun
  · next hpc =>
    split at ht
    · split at ht
      · have ht' := Option.some.inj ht
        subst ht'
        exact h.spawn _ (by simp [hpc,BootPc.stage]) nofun
      · have ht' := Option.some.inj ht
        subst ht'
        exact h.exit
    · exact h.pass ht (by simp [hpc,BootPc.stage]) nofun
  · next hpc =>
    exact h.pass ht (by simp [hpc,BootPc.stage]) nofun
  · next hpc =>
    split at ht
    · cases ht
    · next hdone => exact h.pass ht (by simp [hpc,BootPc.stage]) fun _ => hdone
  · cases ht
  · cases ht

theorem Inv.step (h : Inv cfg s) {a : BootAct} (ht : s.step cfg workers a=some t) : Inv cfg t := by
  cases a with
  | main ok => exact h.mainStep ht
  | tx c ok =>
    simp only [Boot.step] at ht
    split at ht
    · obtain ⟨S,hS,ht'⟩ := Option.map_eq_some_iff.mp ht
      subst ht'
      obtain ⟨hS',hle,-,-⟩ := h.tx.step hS
      refine {h with tx:=hS',gate:=?_,passed:=?_}
      · intro hp hlt
        exact h.gate hp (hle.trans_lt hlt)
      · intro hp hlt
        exact h.passed hp (hle.trans_lt hlt)
    · cases ht
  | rxPass c =>
    simp only [Boot.step] at ht
    split at ht
    · split at ht
      · cases ht
      · next hopen =>
        have ht' := Option.some.inj ht
        subst ht'
        exact {h with rx:=h.rx.move nofun,gate:=fun _ => hopen}
    · cases ht
  | rx c ok =>
    simp only [Boot.step] at ht
    split at ht
    · obtain ⟨S,hS,ht'⟩ := Option.map_eq_some_iff.mp ht
      subst ht'
      obtain ⟨hS',hle,hwait,-⟩ := h.rx.step hS
      have hopen := h.gate ⟨c,hwait⟩
      refine {h with rx:=hS',gate:=fun _ => hopen,passed:=fun _ => hopen,start:=?_}
      intro hp hlt
      exact h.start hp (hle.trans_lt hlt)
    · cases ht

theorem inv_of_reaches (h : Reaches (step cfg workers) anyStep init s) : Inv cfg s :=
  h.invariant (init_inv cfg) fun hi _ ht => hi.step ht

/-- The counters that main has waited for can only have been raised for queues that exist. -/
theorem Inv.queues_pos (h : Inv cfg s) (hreg : s.pc=.register) :
    0 < cfg.ethTxQueues ∧ 0 < cfg.ethRxQueues := by
  obtain ⟨hrx,htx⟩ := h.ctxs (by simp [hreg,BootPc.stage])
  have hrxDone : 0 < s.rx.initDone := Nat.lt_of_lt_of_le hrx (Nat.le_of_not_lt (h.start hreg))
  have htxDone : 0 < s.tx.initDone :=
    Nat.lt_of_lt_of_le htx (Nat.le_of_not_lt (h.passed hrxDone))
  exact ⟨h.tx.counted htxDone,h.rx.counted hrxDone⟩

/-- Whatever the command line says, a process that gets to register_vhost_drivers has queues
to choose from, no more than the arrays of vhost_rx_loop hold, and one ring for each. -/
theorem egress_queue_valid (cfg : BootConfig) (workers : List Nat) (s : Boot)
    (h : Reaches (step cfg workers) anyStep init s) (hreg : s.pc=.register) :
    1 ≤ cfg.ethTxQueues ∧ 1 ≤ cfg.ethRxQueues ∧ cfg.ethTxQueues ≤ maxEthTxQueues ∧
      (∀ (rss : Softrss) (k : FlowKey),∃ j,flowPickTxChecked rss cfg.ethTxQueues k=some j ∧
        j < cfg.ethTxQueues ∧ j < maxEthTxQueues ∧ j < s.ringSlots) ∧
      ∀ vmId,∃ j,flowQueueChecked vmId cfg.ethRxQueues=some j := by
  have hi := inv_of_reaches h
  obtain ⟨htx,hrx⟩ := hi.queues_pos hreg
  have hmax := hi.topology (by simp [hreg,BootPc.stage])
  have hrings := hi.rings (by simp [hreg,BootPc.stage])
  refine ⟨htx,hrx,hmax,fun rss k => ?_,fun vmId => ?_⟩
  · have hlt : flowPickTx rss cfg.ethTxQueues k < cfg.ethTxQueues := Nat.mod_lt _ htx
    refine ⟨_,if_neg (Nat.ne_of_gt htx),hlt,hlt.trans_le hmax,?_⟩
    rw [hrings]
    exact hlt
  · exact ⟨_,if_neg (Nat.ne_of_gt hrx)⟩

/-- One core of each kind and three queues each way, of which every thread sets up one before
main goes on. -/
def threeQueues : BootConfig := ⟨1,1,1,1,3,3⟩

def threeQueuesRun : List BootAct :=
  List.replicate 8 (.main true)++[.tx 0 true,.tx 0 true,.main true]++
    [.rxPass 0,.rx 0 true,.main true,.main true,.rx 0 true,.main true,.main true]

theorem egress_queue_valid_threeQueues : ∃ s,Reaches (step threeQueues [1,2,3,4]) anyStep init s ∧
    s.pc=.register ∧ (∀ (rss : Softrss) (k : FlowKey),
      ∃ j,flowPickTxChecked rss 3 k=some j ∧ j < s.ringSlots) := by
  have hrun : (guardedRun (step threeQueues [1,2,3,4]) anyStep init threeQueuesRun).map
      (fun s => s.pc)=some .register := by decide +kernel
  obtain ⟨s,hs,hpc⟩ := exists_reaches_of_guardedRun threeQueuesRun _ hrun
  obtain ⟨-,-,-,hpick,-⟩ := egress_queue_valid threeQueues [1,2,3,4] s hs hpc
  refine ⟨s,hs,hpc,fun rss k => ?_⟩
  obtain ⟨j,hj,-,-,hlt⟩ := hpick rss k
  exact ⟨j,hj,hlt⟩

end Boot

end Umanet
