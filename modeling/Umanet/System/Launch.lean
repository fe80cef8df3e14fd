import Mathlib.Algebra.GroupWithZero.Nat
import Umanet.Framework.Stride

namespace Umanet

open Framework

/-- The counts that decide who polls what; all are uint16 in config_t. A process whose core
counts are positive and whose number of fast path cores fits `fp_cores`. -/
structure CoreConfig where
  ethRxCores : Nat
  ethTxCores : Nat
  vhostRxCores : Nat
  vhostTxCores : Nat
  ethRxQueues : Nat
  ethTxQueues : Nat
  ethRxCores_pos : 0 < ethRxCores
  ethTxCores_pos : 0 < ethTxCores
  vhostRxCores_pos : 0 < vhostRxCores
  vhostTxCores_pos : 0 < vhostTxCores
  cores_lt : ethRxCores+ethTxCores+vhostRxCores+vhostTxCores < 2^16

/-- The four arrays of contexts. -/
inductive Kind
  | ethRx
  | ethTx
  | vhostRx
  | vhostTx
  deriving DecidableEq

namespace CoreConfig

def cores (cfg : CoreConfig) : Kind → Nat
  | .ethRx => cfg.ethRxCores
  | .ethTx => cfg.ethTxCores
  | .vhostRx => cfg.vhostRxCores
  | .vhostTx => cfg.vhostTxCores

/-- `global->fp_cores`, a uint16 -/
def fpCores (cfg : CoreConfig) : Nat :=
  (cfg.ethRxCores+cfg.ethTxCores+cfg.vhostRxCores+cfg.vhostTxCores)%2^16

def offset (cfg : CoreConfig) : Kind → Nat
  | .ethRx => 0
  | .ethTx => cfg.ethRxCores
  | .vhostRx => cfg.ethRxCores+cfg.ethTxCores
  | .vhostTx => cfg.ethRxCores+cfg.ethTxCores+cfg.vhostRxCores

end CoreConfig

/-- The array and the index common_thread takes its context from; none is the call of
thread_error. The argument becomes a uint16, the index is computed in int. -/
def commonThread (cfg : CoreConfig) (arg : Nat) : Option (Kind × Int) :=
  let id : Int := (arg%2^16 : Nat)
  if id ≤ cfg.ethRxCores then some (.ethRx,id-1)
  else if id ≤ cfg.ethRxCores+cfg.ethTxCores then some (.ethTx,id-cfg.ethRxCores-1)
  else if id ≤ cfg.ethRxCores+cfg.ethTxCores+cfg.vhostRxCores then
    some (.vhostRx,id-cfg.ethRxCores-cfg.ethTxCores-1)
  else if id ≤ cfg.ethRxCores+cfg.ethTxCores+cfg.vhostRxCores+cfg.vhostTxCores then
    some (.vhostTx,id-cfg.ethRxCores-cfg.ethTxCores-cfg.vhostRxCores-1)
  else none

/-- common_thread started on a worker lcore with an argument. -/
structure Launch where
  lcore : Nat
  arg : Nat
  deriving DecidableEq

/-- The loop of start_threads over the worker lcores; `ok` is whether rte_eal_remote_launch
accepts an lcore. -/
def launchLoop (fp : Nat) (ok : Nat → Bool) : Nat → List Nat → Int × List Launch
  | _,[] => (0,[])
  | launched,c::cs =>
    if launched < fp then
      if ok c then
        let r := launchLoop fp ok ((launched+1)%2^16) cs
        (r.1,⟨c,launched+1⟩::r.2)
      else (-1,[])
    else launchLoop fp ok launched cs

/-- Return code of start_threads and what it has launched. rte_lcore_count counts the main
lcore as well. -/
def startThreads (cfg : CoreConfig) (ok : Nat → Bool) (workers : List Nat) : Int × List Launch :=
  if workers.length+1 < cfg.fpCores+1 then (-1,[]) else launchLoop cfg.fpCores ok 0 workers

/-- A loop over the queues of a thread: contexts of kind k have their own index in
`eth_rx_queue_r` or `eth_tx_queue_r`. -/
def queuesOf (cfg : CoreConfig) (k : Kind) (queues : Nat) (l : Launch) : List Nat :=
  match commonThread cfg l.arg with
  | some (k',r) => if k'=k then stride (cfg.cores k) queues queues r.toNat else []
  | none => []

/-- Queues set up by network_rx_queue_init. -/
def rxQueueInit (cfg : CoreConfig) : Launch → List Nat := queuesOf cfg .ethRx cfg.ethRxQueues

/-- Queues set up by network_tx_queue_init. -/
def txQueueInit (cfg : CoreConfig) : Launch → List Nat := queuesOf cfg .ethTx cfg.ethTxQueues

/-- Queues polled in a pass of eth_rx_loop. -/
def ethRxPass (cfg : CoreConfig) : Launch → List Nat := queuesOf cfg .ethRx cfg.ethRxQueues

/-- Rings dequeued in a pass of eth_tx_loop, each with the NIC queue its packets are sent
to. -/
def ethTxPass (cfg : CoreConfig) (l : Launch) : List (Nat × Nat) :=
  (queuesOf cfg .ethTx cfg.ethTxQueues l).map fun i => (i,i)

section
variable {cfg : CoreConfig} {ok : Nat → Bool} {workers : List Nat}

theorem CoreConfig.fpCores_eq (cfg : CoreConfig) :
    cfg.fpCores=cfg.ethRxCores+cfg.ethTxCores+cfg.vhostRxCores+cfg.vhostTxCores :=
  Nat.mod_eq_of_lt cfg.cores_lt

theorem CoreConfig.cores_pos (cfg : CoreConfig) (k : Kind) : 0 < cfg.cores k := by
  cases k with
  | ethRx => exact cfg.ethRxCores_pos
  | ethTx => exact cfg.ethTxCores_pos
  | vhostRx => exact cfg.vhostRxCores_pos
  | vhostTx => exact cfg.vhostTxCores_pos

/-- The ids of all kinds, one kind after the other, are those from 1 to fp_cores. -/
theorem CoreConfig.offset_lt (cfg : CoreConfig) {k : Kind} {i : Nat} (hi : i < cfg.cores k) :
    cfg.offset k+i < cfg.fpCores := by
  rw [cfg.fpCores_eq]
  cases k <;> simp only [cores,offset] at hi ⊢ <;> omega

/-- common_thread takes context i of kind k for the id that is i+1 past the kind's offset. -/
theorem commonThread_iff {arg : Nat} (harg : arg ≤ cfg.fpCores) (k : Kind) (i : Nat) :
    commonThread cfg arg=some (k,(i : Int)) ↔ i < cfg.cores k ∧ arg=cfg.offset k+i+1 := by
  have hlt := cfg.cores_lt
  have hfp := cfg.fpCores_eq
  have hmod : arg%2^16=arg := Nat.mod_eq_of_lt (by omega)
  unfold commonThread
  rw [hmod]
  dsimp only
  split
  · cases k <;> simp [CoreConfig.cores,CoreConfig.offset] <;> omega
  · split
    · cases k <;> simp [CoreConfig.cores,CoreConfig.offset] <;> omega
    · split
      · cases k <;> simp [CoreConfig.cores,CoreConfig.offset] <;> omega
      · split
        · cases k <;> simp [CoreConfig.cores,CoreConfig.offset] <;> omega
        · omega

theorem exists_context {arg : Nat} (h1 : 1 ≤ arg) (h2 : arg ≤ cfg.fpCores) :
    ∃ k,∃ i < cfg.cores k,commonThread cfg arg=some (k,(i : Int)) := by
  have hfp := cfg.fpCores_eq
  obtain ⟨k,i,hi,he⟩ : ∃ k i,i < cfg.cores k ∧ arg=cfg.offset k+i+1 := by
    by_cases ha : arg ≤ cfg.ethRxCores
    · exact ⟨.ethRx,arg-1,by simp only [CoreConfig.cores]; omega,
        by simp only [CoreConfig.offset]; omega⟩
    by_cases hb : arg ≤ cfg.ethRxCores+cfg.ethTxCores
    · exact ⟨.ethTx,arg-cfg.ethRxCores-1,by simp only [CoreConfig.cores]; omega,
        by simp only [CoreConfig.offset]; omega⟩
    by_cases hc : arg ≤ cfg.ethRxCores+cfg.ethTxCores+cfg.vhostRxCores
    · exact ⟨.vhostRx,arg-cfg.ethRxCores-cfg.ethTxCores-1,by simp only [CoreConfig.cores]; omega,
        by simp only [CoreConfig.offset]; omega⟩
    · exact ⟨.vhostTx,arg-cfg.ethRxCores-cfg.ethTxCores-cfg.vhostRxCores-1,
        by simp only [CoreConfig.cores]; omega,by simp only [CoreConfig.offset]; omega⟩
  exact ⟨k,i,hi,(commonThread_iff h2 k i).mpr ⟨hi,he⟩⟩

/-- With enough lcores left the loop launches the ids that are missing, in order, one on each of
the next lcores. -/
theorem launchLoop_spec {fp launched : Nat} (hfp : fp < 2^16) (hl : launched ≤ fp)
    (hn : fp ≤ launched+workers.length) (hok : ∀ c∈workers,ok c=true) :
    (launchLoop fp ok launched workers).1=0 ∧
      (launchLoop fp ok launched workers).2.map Launch.arg=
        List.range' (launched+1) (fp-launched) ∧
      (launchLoop fp ok launched workers).2.map Launch.lcore=workers.take (fp-launched) := by
  induction workers generalizing launched with
  | nil =>
    have heq : launched=fp := by
      rw [List.length_nil] at hn
      omega
    subst heq
    simp [launchLoop]
  | cons c cs ih =>
    have hrest : ∀ c'∈cs,ok c'=true := fun c' hc => hok c' (List.mem_cons_of_mem _ hc)
    rw [List.length_cons] at hn
    rw [launchLoop]
    by_cases hlt : launched < fp
    · rw [if_pos hlt,if_pos (hok c List.mem_cons_self),Nat.mod_eq_of_lt (by omega)]
      obtain ⟨h0,hmap,hcore⟩ := ih (Nat.succ_le_of_lt hlt) (by omega) hrest
      have hcount : fp-launched=fp-(launched+1)+1 := by omega
      refine ⟨h0,?_,?_⟩
      · rw [hcount,List.range'_succ,List.map_cons,hmap]
      · rw [hcount,List.take_succ_cons,List.map_cons,hcore]
    · rw [if_neg hlt]
      have heq : launched=fp := by omega
      subst heq
      obtain ⟨h0,hmap,hcore⟩ := ih (Nat.le_refl launched) (by omega) hrest
      refine ⟨h0,hmap,?_⟩
      rw [Nat.sub_self,List.take_zero] at hcore ⊢
      exact hcore

/-- start_threads launches the ids 1 to fp_cores, each once and on an lcore of its own. -/
theorem startThreads_spec (hworkers : cfg.fpCores ≤ workers.length)
    (hok : ∀ c∈workers,ok c=true) : (startThreads cfg ok workers).1=0 ∧
      (startThreads cfg ok workers).2.map Launch.arg=List.range' 1 cfg.fpCores ∧
      (startThreads cfg ok workers).2.map Launch.lcore=workers.take cfg.fpCores := by
  rw [startThreads,if_neg (by omega)]
  exact launchLoop_spec (Nat.mod_lt _ (by decide)) (Nat.zero_le _) (by omega) hok

/-- A queue is in the loop of the thread whose context is the queue's remainder. -/
theorem mem_queuesOf {k : Kind} {queues q : Nat} {l : Launch} (h1 : 1 ≤ l.arg)
    (h2 : l.arg ≤ cfg.fpCores) (hq : q < queues) : q∈queuesOf cfg k queues l ↔
      commonThread cfg l.arg=some (k,((q%cfg.cores k : Nat) : Int)) := by
  obtain ⟨k',i,hi,hthread⟩ := exists_context h1 h2
  have hmod := mem_stride_iff_mod (q:=queues) (f:=queues) (i:=q) hi (by omega)
  unfold queuesOf
  rw [hthread]
  dsimp only
  split
  · next hk =>
    subst hk
    rw [Int.toNat_natCast,hmod,Option.some.injEq,Prod.mk.injEq,Int.natCast_inj]
    simp [hq,eq_comm]
  · next hk => simp [hk]

end

/-- Of the launched threads, l and no other passes the test. -/
def Only (threads : List Launch) (p : Launch → Bool) (l : Launch) : Prop := threads.filter p=[l]

section
variable {cfg : CoreConfig} {threads : List Launch}

/-- The threads that start_threads launches. -/
abbrev Staffed (cfg : CoreConfig) (threads : List Launch) : Prop :=
  threads.map Launch.arg=List.range' 1 cfg.fpCores

theorem Staffed.arg (h : Staffed cfg threads) {l : Launch} (hl : l∈threads) :
    1 ≤ l.arg ∧ l.arg ≤ cfg.fpCores := by
  have hm : l.arg∈List.range' 1 cfg.fpCores := h ▸ List.mem_map_of_mem hl
  rw [List.mem_range'_1] at hm
  omega

theorem Staffed.owner (h : Staffed cfg threads) {k : Kind} {i : Nat} (hi : i < cfg.cores k) :
    ∃ l∈threads,∀ l'∈threads,commonThread cfg l'.arg=some (k,(i : Int)) ↔ l'=l := by
  have hlt := cfg.offset_lt hi
  have hm : cfg.offset k+i+1∈threads.map Launch.arg := by
    rw [h,List.mem_range'_1]
    omega
  obtain ⟨l,hl,harg⟩ := List.mem_map.mp hm
  have hnodup : (threads.map Launch.arg).Nodup := h ▸ List.nodup_range'
  refine ⟨l,hl,fun l' hl' => ?_⟩
  rw [commonThread_iff (h.arg hl').2]
  constructor
  · rintro ⟨-,he⟩
    exact List.inj_on_of_nodup_map hnodup hl' hl (he.trans harg.symm)
  · rintro rfl
    exact ⟨hi,harg⟩

theorem Staffed.only (h : Staffed cfg threads) {k : Kind} {i : Nat} (hi : i < cfg.cores k) :
    ∃ l,∀ p : Launch → Bool,
      (∀ l'∈threads,p l'=true ↔ commonThread cfg l'.arg=some (k,(i : Int))) → Only threads p l := by
  obtain ⟨l,hl,hown⟩ := h.owner hi
  have hnodup : threads.Nodup := List.Nodup.of_map Launch.arg (h ▸ List.nodup_range')
  refine ⟨l,fun p hp => filter_eq_singleton hnodup hl fun l' hl' => ?_⟩
  rw [hp l' hl',hown l' hl']

end

/-- For every configuration with positive core counts whose sum fits a uint16, and enough
lcores: start_threads launches every context of every kind exactly once and with an index of
its array, on the first lcores, one each; every NIC RX queue is set up and polled by exactly one thread; every ring of
`eth_tx_queue_rings` is dequeued, and the NIC TX queue of the same number set up and sent to,
by exactly one thread. -/
theorem queues_owned_once (cfg : CoreConfig) (ok : Nat → Bool) (workers : List Nat)
    (hworkers : cfg.fpCores ≤ workers.length) (hok : ∀ c∈workers,ok c=true) :
    (startThreads cfg ok workers).1=0 ∧
    (startThreads cfg ok workers).2.map Launch.lcore=workers.take cfg.fpCores ∧
    (∀ k,∀ i < cfg.cores k,∃ l,Only (startThreads cfg ok workers).2
      (fun l => decide (commonThread cfg l.arg=some (k,(i : Int)))) l) ∧
    (∀ l∈(startThreads cfg ok workers).2,∃ k,∃ i < cfg.cores k,
      commonThread cfg l.arg=some (k,(i : Int))) ∧
    (∀ q < cfg.ethRxQueues,∃ l,
      Only (startThreads cfg ok workers).2 (fun l => decide (q∈rxQueueInit cfg l)) l ∧
      Only (startThreads cfg ok workers).2 (fun l => decide (q∈ethRxPass cfg l)) l) ∧
    ∀ q < cfg.ethTxQueues,∃ l,
      Only (startThreads cfg ok workers).2 (fun l => decide (q∈txQueueInit cfg l)) l ∧
      Only (startThreads cfg ok workers).2 (fun l => decide (q∈(ethTxPass cfg l).map Prod.fst)) l ∧
      Only (startThreads cfg ok workers).2 (fun l => decide (q∈(ethTxPass cfg l).map Prod.snd)) l := by
  obtain ⟨h0,hall,hcore⟩ := startThreads_spec hworkers hok
  have hc : Staffed cfg (startThreads cfg ok workers).2 := hall
  generalize (startThreads cfg ok workers).2=threads at hc hcore ⊢
  have hqueue : ∀ (k : Kind) (queues q : Nat),q < queues → ∀ l∈threads,
      q∈queuesOf cfg k queues l ↔ commonThread cfg l.arg=some (k,((q%cfg.cores k : Nat) : Int)) :=
    fun k queues q hq l hl => mem_queuesOf (hc.arg hl).1 (hc.arg hl).2 hq
  have hmod : ∀ k q,q%cfg.cores k < cfg.cores k := fun k q => Nat.mod_lt q (cfg.cores_pos k)
  refine ⟨h0,hcore,fun k i hi => ?_,fun l hl => ?_,fun q hq => ?_,fun q hq => ?_⟩
  · obtain ⟨l,hl⟩ := hc.only hi
    exact ⟨l,hl _ fun l' _ => decide_eq_true_iff⟩
  · exact exists_context (hc.arg hl).1 (hc.arg hl).2
  · obtain ⟨l,hl⟩ := hc.only (hmod .ethRx q)
    refine ⟨l,hl _ fun l' hl' => ?_,hl _ fun l' hl' => ?_⟩
    · rw [decide_eq_true_iff,rxQueueInit,hqueue _ _ q hq l' hl']
    · rw [decide_eq_true_iff,ethRxPass,hqueue _ _ q hq l' hl']
  · obtain ⟨l,hl⟩ := hc.only (hmod .ethTx q)
    have hfst : ∀ l',(ethTxPass cfg l').map Prod.fst=queuesOf cfg .ethTx cfg.ethTxQueues l' :=
      fun l' => by simp [ethTxPass,Function.comp_def]
    have hsnd : ∀ l',(ethTxPass cfg l').map Prod.snd=queuesOf cfg .ethTx cfg.ethTxQueues l' :=
      fun l' => by simp [ethTxPass,Function.comp_def]
    refine ⟨l,hl _ fun l' hl' => ?_,hl _ fun l' hl' => ?_,hl _ fun l' hl' => ?_⟩
    · rw [decide_eq_true_iff,txQueueInit,hqueue _ _ q hq l' hl']
    · rw [decide_eq_true_iff,hfst,hqueue _ _ q hq l' hl']
    · rw [decide_eq_true_iff,hsnd,hqueue _ _ q hq l' hl']

/-- Two eth_rx cores for five queues, one core of each other kind, two TX queues. -/
def fiveQueues : CoreConfig where
  ethRxCores:=2
  ethTxCores:=1
  vhostRxCores:=1
  vhostTxCores:=1
  ethRxQueues:=5
  ethTxQueues:=2
  ethRxCores_pos:=Nat.two_pos
  ethTxCores_pos:=Nat.one_pos
  vhostRxCores_pos:=Nat.one_pos
  vhostTxCores_pos:=Nat.one_pos
  cores_lt:=by decide

/-- On lcores 1 to 6 queue 3 belongs to the second eth_rx thread. -/
theorem queues_owned_fiveQueues :
    (startThreads fiveQueues (fun _ => true) [1,2,3,4,5,6]).2=
      [⟨1,1⟩,⟨2,2⟩,⟨3,3⟩,⟨4,4⟩,⟨5,5⟩] ∧ ethRxPass fiveQueues ⟨2,2⟩=[1,3] ∧
    ∃ l,Only (startThreads fiveQueues (fun _ => true) [1,2,3,4,5,6]).2
      (fun l => decide (3∈ethRxPass fiveQueues l)) l := by
  have h := queues_owned_once fiveQueues (fun _ => true) [1,2,3,4,5,6] (by decide)
    (fun _ _ => rfl)
  obtain ⟨l,-,hl⟩ := h.2.2.2.2.1 3 (by decide)
  exact ⟨by decide,by decide,l,hl⟩

end Umanet
