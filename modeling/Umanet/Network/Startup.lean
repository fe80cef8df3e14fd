import Mathlib.Data.Finset.Card
import Mathlib.Data.Finset.Range
import Umanet.Framework.Run

namespace Umanet

open Framework

/-- The numbers of cores and queues that config_t has for the NIC; all are uint16. -/
structure NicConfig where
  ethRxCores : Nat
  ethTxCores : Nat
  ethRxQueues : Nat
  ethTxQueues : Nat
  rxCores_pos : 0 < ethRxCores
  txCores_pos : 0 < ethTxCores
  rxQueues_pos : 0 < ethRxQueues
  txQueues_pos : 0 < ethTxQueues

/-- Where a thread is in network_tx_queue_init or network_rx_queue_init: in the spin loop,
at the loop test with a queue index, between the setup of a queue and the increment, or
returned because a setup failed. -/
inductive QueuePc
  | wait
  | head (i : Nat)
  | count (i : Nat)
  | failed (i : Nat)
  deriving DecidableEq

/-- The threads of one direction, the queues that are set up, and `tx_init_done` or
`rx_init_done`. -/
structure QueueSide where
  pc : Nat → QueuePc
  ready : Nat → Bool
  initDone : Nat

namespace QueueSide

/-- Thread c goes on in its queue loop; `ok` is the answer of the queue setup. -/
def step (cores queues : Nat) (S : QueueSide) (c : Nat) (ok : Bool) : Option QueueSide :=
  match S.pc c with
  | .head i =>
    if i < queues then
      if ok then some {S with
        pc:=Function.update S.pc c (.count i)
        ready:=Function.update S.ready i true}
      else some {S with pc:=Function.update S.pc c (.failed i)}
    else none
  | .count i => some {S with
      pc:=Function.update S.pc c (.head (i+cores))
      initDone:=S.initDone+1}
  | _ => none

/-- The first m threads are at their first queue, the others wait. -/
def passed (m : Nat) : QueueSide :=
  ⟨fun c => if c < m then .head c else .wait,fun _ => false,0⟩

def Finished (queues : Nat) (S : QueueSide) (c : Nat) : Prop := ∃ i,queues ≤ i ∧ S.pc c=.head i

end QueueSide

/-- The eth_tx threads, the eth_rx threads, and whether main has called
rte_eth_dev_start. -/
structure Startup where
  tx : QueueSide
  rx : QueueSide
  started : Bool

inductive StartAct
  | tx (c : Nat) (ok : Bool)
  | rxPass (c : Nat)
  | rx (c : Nat) (ok : Bool)
  | start

namespace Startup

/-- eth_tx thread c starts with queue c; the eth_rx threads start in their spin loop. -/
def init (cfg : NicConfig) : Startup := ⟨.passed cfg.ethTxCores,.passed 0,false⟩

def step (cfg : NicConfig) (s : Startup) : StartAct → Option Startup
  | .tx c ok =>
    if c < cfg.ethTxCores then
      (s.tx.step cfg.ethTxCores cfg.ethTxQueues c ok).map fun S => {s with tx:=S}
    else none
  | .rxPass c =>
    if c < cfg.ethRxCores ∧ s.rx.pc c=.wait then
      if s.tx.initDone < cfg.ethTxCores then none
      else some {s with rx:={s.rx with pc:=Function.update s.rx.pc c (.head c)}}
    else none
  | .rx c ok =>
    if c < cfg.ethRxCores then
      (s.rx.step cfg.ethRxCores cfg.ethRxQueues c ok).map fun S => {s with rx:=S}
    else none
  | .start =>
    if s.rx.initDone < cfg.ethRxCores ∨ s.started=true then none else some {s with started:=true}

/-- RX setup and device start come after the queues they need, and threads that are done
leave no spin loop closed. -/
structure Barrier (cfg : NicConfig) (s : Startup) : Prop where
  rxAfterTx : ∀ c < cfg.ethRxCores,s.rx.pc c≠.wait → ∀ i < cfg.ethTxQueues,s.tx.ready i=true
  startLast : s.started=true → (∀ i < cfg.ethTxQueues,s.tx.ready i=true) ∧
    ∀ i < cfg.ethRxQueues,s.rx.ready i=true
  txOpens : (∀ c < cfg.ethTxCores,s.tx.Finished cfg.ethTxQueues c) → ¬s.tx.initDone < cfg.ethTxCores
  rxOpens : (∀ c < cfg.ethRxCores,s.rx.Finished cfg.ethRxQueues c) → ¬s.rx.initDone < cfg.ethRxCores

end Startup

namespace QueueSide

open Finset

variable {n : Nat} {S T : QueueSide}

/-- With as many queues as cores thread c sets up queue c and no other, and the counter is
the number of threads that have. -/
structure Once (n : Nat) (S : QueueSide) : Prop where
  pc : ∀ c < n,S.pc c=.wait ∨ S.pc c=.head c ∨ S.pc c=.count c ∨ S.pc c=.failed c ∨
    S.pc c=.head (c+n)
  ready : ∀ c < n,S.ready c=true ↔ S.pc c=.count c ∨ S.pc c=.head (c+n)
  done : S.initDone=((range n).filter fun c => S.pc c=.head (c+n)).card

theorem passed_once (hn : 0 < n) (m : Nat) : (passed m).Once n := by
  have hpc : ∀ c,(passed m).pc c=.wait ∨ (passed m).pc c=.head c := by
    intro c
    by_cases hc : c < m
    · exact Or.inr (if_pos hc)
    · exact Or.inl (if_neg hc)
  have hne : ∀ c,(passed m).pc c≠.head (c+n) := by
    intro c he
    rcases hpc c with h | h
    · simp [h] at he
    · rw [h,QueuePc.head.injEq] at he
      omega
  refine ⟨fun c _ => ?_,fun c _ => ?_,?_⟩
  · rcases hpc c with h | h
    · exact Or.inl h
    · exact Or.inr (Or.inl h)
  · constructor
    · intro h
      simp [passed] at h
    · rintro (h | h)
      · rcases hpc c with h' | h' <;> simp [h'] at h
      · exact absurd h (hne c)
  · rw [filter_false_of_mem fun c _ => hne c]
    rfl

/-- Once the counter has reached the number of cores every thread is done. -/
theorem Once.full (h : S.Once n) (hd : ¬S.initDone < n) : ∀ c < n,S.pc c=.head (c+n) := by
  rw [h.done] at hd
  have heq : (range n).filter (fun c => S.pc c=.head (c+n))=range n :=
    eq_of_subset_of_card_le (filter_subset _ _) (by rw [card_range]; omega)
  intro c hc
  have hmem : c∈(range n).filter fun c => S.pc c=.head (c+n) := by
    rw [heq]
    exact mem_range.mpr hc
  exact (mem_filter.mp hmem).2

theorem Once.all_ready (h : S.Once n) (hd : ¬S.initDone < n) : ∀ c < n,S.ready c=true :=
  fun c hc => (h.ready c hc).mpr (Or.inr (h.full hd c hc))

/-- When every thread is done the counter has reached the number of cores. -/
theorem Once.opens (h : S.Once n) (hf : ∀ c < n,S.Finished n c) : ¬S.initDone < n := by
  have heq : (range n).filter (fun c => S.pc c=.head (c+n))=range n := by
    refine filter_true_of_mem fun c hc => ?_
    rw [mem_range] at hc
    obtain ⟨i,hi,hpc⟩ := hf c hc
    rcases h.pc c hc with h' | h' | h' | h' | h'
    · simp [h'] at hpc
    · rw [h',QueuePc.head.injEq] at hpc
      omega
    · simp [h'] at hpc
    · simp [h'] at hpc
    · exact h'
  rw [h.done,heq,card_range]
  omega

/-- A thread that moves, but not past its increment, leaves the counter right. -/
theorem Once.move (h : S.Once n) {c : Nat} {x : QueuePc} (hold : S.pc c≠.head (c+n))
    (hnew : x≠.head (c+n)) : S.initDone=((range n).filter fun d =>
      Function.update S.pc c x d=.head (d+n)).card := by
  rw [h.done]
  congr 1
  refine filter_congr fun d _ => ?_
  by_cases hd : d=c
  · subst hd
    simp [hold,hnew]
  · simp [hd]

theorem Once.update (h : S.Once n) {c k : Nat} {x : QueuePc} {ready : Nat → Bool}
    (hpc : x=.wait ∨ x=.head c ∨ x=.count c ∨ x=.failed c ∨ x=.head (c+n))
    (hready : ready c=true ↔ x=.count c ∨ x=.head (c+n)) (hother : ∀ d≠c,ready d=S.ready d)
    (hdone : k=((range n).filter fun d => Function.update S.pc c x d=.head (d+n)).card) :
    Once n ⟨Function.update S.pc c x,ready,k⟩ := by
  refine ⟨fun d hd => ?_,fun d hd => ?_,hdone⟩
  · by_cases hdc : d=c
    · subst hdc
      simpa using hpc
    · simpa [hdc] using h.pc d hd
  · by_cases hdc : d=c
    · subst hdc
      simpa using hready
    · simpa [hdc,hother d hdc] using h.ready d hd

theorem head_ne_add (hn : 0 < n) (c : Nat) : QueuePc.head c≠.head (c+n) := by
  rw [ne_eq,QueuePc.head.injEq]
  omega

theorem Once.pass (h : S.Once n) (hn : 0 < n) {c : Nat} (hc : c < n) (hpc : S.pc c=.wait) :
    ({S with pc:=Function.update S.pc c (.head c)} : QueueSide).Once n := by
  have hcn := head_ne_add hn c
  have hready := h.ready c hc
  rw [hpc] at hready
  refine h.update (Or.inr (Or.inl rfl)) ?_ (fun _ _ => rfl) (h.move (by simp [hpc]) hcn)
  simpa [hcn] using hready

theorem Once.step (h : S.Once n) (hn : 0 < n) {c : Nat} (hc : c < n) {ok : Bool}
    (ht : S.step n n c ok=some T) : T.Once n ∧ S.initDone ≤ T.initDone ∧
      S.pc c≠.wait ∧ ∀ d,d≠c → T.pc d=S.pc d := by
  have hcn := head_ne_add hn c
  have hready := h.ready c hc
  unfold QueueSide.step at ht
  rcases h.pc c hc with hpc | hpc | hpc | hpc | hpc
  · simp [hpc] at ht
  · simp only [hpc,if_pos hc] at ht
    have hold : S.pc c≠.head (c+n) := by rwa [hpc]
    cases ok with
    | true =>
      have ht' := Option.some.inj ht
      subst ht'
      refine ⟨h.update (by simp) (by simp) (fun d hd => Function.update_of_ne hd ..)
        (h.move hold (by simp)),le_rfl,by simp [hpc],fun d hd => Function.update_of_ne hd ..⟩
    | false =>
      have ht' := Option.some.inj ht
      subst ht'
      rw [hpc] at hready
      refine ⟨h.update (by simp) (by simpa [hcn] using hready) (fun _ _ => rfl)
        (h.move hold (by simp)),le_rfl,by simp [hpc],fun d hd => Function.update_of_ne hd ..⟩
  · simp only [hpc] at ht
    have ht' := Option.some.inj ht
    subst ht'
    rw [hpc] at hready
    refine ⟨h.update (by simp) (by simpa using hready) (fun _ _ => rfl) ?_,Nat.le_succ _,
      by simp [hpc],fun d hd => Function.update_of_ne hd ..⟩
    have hins : (range n).filter (fun d => Function.update S.pc c (.head (c+n)) d=.head (d+n))=
        insert c ((range n).filter fun d => S.pc d=.head (d+n)) := by
      ext d
      by_cases hdc : d=c
      · simp [hdc,hc]
      · simp [hdc]
    rw [hins,card_insert_of_notMem (by simp [hpc]),h.done]
  · simp [hpc] at ht
  · have hnl : ¬c+n < n := by omega
    simp [hpc,hnl] at ht

/-- The first k threads have set up their first queue, the others are still at theirs. -/
def dealt (cores k : Nat) : QueueSide :=
  ⟨fun c => if c < k then .head (c+cores) else if c < cores then .head c else .wait,
    fun i => decide (i < k),k⟩

theorem dealt_zero (cores : Nat) : dealt cores 0=passed cores := by
  simp [dealt,passed]

theorem dealt_succ {cores queues k : Nat} (hc : k < cores) (hq : k < queues) :
    ∃ S,(dealt cores k).step cores queues k true=some S ∧
      S.step cores queues k true=some (dealt cores (k+1)) := by
  have hpc : (dealt cores k).pc k=.head k := by simp [dealt,hc]
  refine ⟨_,by simp only [QueueSide.step,hpc,if_pos hq]; rfl,?_⟩
  simp only [QueueSide.step,Function.update_self]
  congr 1
  simp only [dealt,QueueSide.mk.injEq]
  refine ⟨funext fun c => ?_,funext fun i => ?_,trivial⟩
  · by_cases hck : c=k
    · simp [hck]
    · have : (c < k+1)=(c < k) := by
        rw [eq_iff_iff]
        omega
      simp [hck,this]
  · by_cases hik : i=k
    · simp [hik]
    · have : (i < k+1)=(i < k) := by
        rw [eq_iff_iff]
        omega
      simp [hik,this]

/-- With fewer queues than cores all threads are done after the last queue. -/
theorem dealt_finished {cores queues : Nat} (h : queues ≤ cores) {c : Nat} (hc : c < cores) :
    (dealt cores queues).Finished queues c := by
  by_cases hq : c < queues
  · exact ⟨c+cores,by omega,by simp [dealt,hq]⟩
  · exact ⟨c,by omega,by simp [dealt,hq,hc]⟩

theorem passed_succ (m : Nat) :
    ({passed m with pc:=Function.update (passed m).pc m (.head m)} : QueueSide)=passed (m+1) := by
  simp only [passed,QueueSide.mk.injEq,and_true]
  refine funext fun c => ?_
  by_cases hcm : c=m
  · simp [hcm]
  · have : (c < m+1)=(c < m) := by
      rw [eq_iff_iff]
      omega
    simp [hcm,this]

end QueueSide

namespace Startup

variable {cfg : NicConfig}

/-- What every state of a startup with one queue per core satisfies. -/
structure Inv (cfg : NicConfig) (s : Startup) : Prop where
  tx : s.tx.Once cfg.ethTxCores
  rx : s.rx.Once cfg.ethRxCores
  rxGated : ∀ c < cfg.ethRxCores,s.rx.pc c≠.wait → ¬s.tx.initDone < cfg.ethTxCores
  startGated : s.started=true → ¬s.rx.initDone < cfg.ethRxCores

theorem init_inv (cfg : NicConfig) : Inv cfg (init cfg) where
  tx := QueueSide.passed_once cfg.txCores_pos _
  rx := QueueSide.passed_once cfg.rxCores_pos _
  rxGated := by
    intro c _ h
    simp [init,QueueSide.passed] at h
  startGated := by
    intro h
    simp [init] at h

theorem step_inv (htx : cfg.ethTxQueues=cfg.ethTxCores) (hrx : cfg.ethRxQueues=cfg.ethRxCores)
    {s t : Startup} {a : StartAct} (hi : Inv cfg s) (ht : step cfg s a=some t) : Inv cfg t := by
  cases a with
  | tx c ok =>
    simp only [step,htx] at ht
    split at ht
    · next hc =>
      obtain ⟨S,hS,rfl⟩ := Option.map_eq_some_iff.mp ht
      obtain ⟨honce,hle,-,-⟩ := hi.tx.step cfg.txCores_pos hc hS
      refine ⟨honce,hi.rx,fun d hd hpc hlt => ?_,hi.startGated⟩
      exact hi.rxGated d hd hpc (Nat.lt_of_le_of_lt hle hlt)
    · cases ht
  | rxPass c =>
    simp only [step] at ht
    split at ht
    · next hc =>
      split at ht
      · cases ht
      · next hopen =>
        have ht' := Option.some.inj ht
        subst ht'
        exact ⟨hi.tx,hi.rx.pass cfg.rxCores_pos hc.1 hc.2,fun _ _ _ => hopen,hi.startGated⟩
    · cases ht
  | rx c ok =>
    simp only [step,hrx] at ht
    split at ht
    · next hc =>
      obtain ⟨S,hS,rfl⟩ := Option.map_eq_some_iff.mp ht
      obtain ⟨honce,hle,hmoved,hframe⟩ := hi.rx.step cfg.rxCores_pos hc hS
      refine ⟨hi.tx,honce,fun d hd hpc => ?_,fun hst hlt => ?_⟩
      · by_cases hdc : d=c
        · exact hi.rxGated c hc hmoved
        · exact hi.rxGated d hd (hframe d hdc ▸ hpc)
      · exact hi.startGated hst (Nat.lt_of_le_of_lt hle hlt)
    · cases ht
  | start =>
    simp only [step] at ht
    split at ht
    · cases ht
    · next hopen =>
      have ht' := Option.some.inj ht
      subst ht'
      exact ⟨hi.tx,hi.rx,hi.rxGated,fun _ hlt => hopen (Or.inl hlt)⟩

theorem inv_barrier (htx : cfg.ethTxQueues=cfg.ethTxCores) (hrx : cfg.ethRxQueues=cfg.ethRxCores)
    {s : Startup} (hi : Inv cfg s) : Barrier cfg s := by
  have htxAll : ∀ c < cfg.ethRxCores,s.rx.pc c≠.wait → ∀ i < cfg.ethTxQueues,s.tx.ready i=true :=
    fun c hc hpc i hq => hi.tx.all_ready (hi.rxGated c hc hpc) i (htx ▸ hq)
  refine ⟨htxAll,fun hst => ?_,fun hf => ?_,fun hf => ?_⟩
  · have hopen := hi.startGated hst
    have hzero := hi.rx.full hopen 0 cfg.rxCores_pos
    refine ⟨htxAll 0 cfg.rxCores_pos (by simp [hzero]),fun i hq => ?_⟩
    exact hi.rx.all_ready hopen i (hrx ▸ hq)
  · rw [htx] at hf
    exact hi.tx.opens hf
  · rw [hrx] at hf
    exact hi.rx.opens hf

theorem reaches_tx {k : Nat} (hc : k ≤ cfg.ethTxCores) (hq : k ≤ cfg.ethTxQueues) :
    Reaches (step cfg) anyStep (init cfg) ⟨.dealt cfg.ethTxCores k,.passed 0,false⟩ := by
  induction k with
  | zero =>
    rw [QueueSide.dealt_zero]
    exact .refl
  | succ k ih =>
    have hk : k < cfg.ethTxCores := hc
    obtain ⟨S,hset,hcount⟩ := QueueSide.dealt_succ hk (show k < cfg.ethTxQueues from hq)
    have h1 : Reaches (step cfg) anyStep (init cfg) ⟨S,.passed 0,false⟩ :=
      .tail (a:=.tx k true) (ih (by omega) (by omega)) trivial (by simp [step,hk,hset])
    exact .tail (a:=.tx k true) h1 trivial (by simp [step,hk,hcount])

/-- Once the spin loop is open any number of eth_rx threads can pass it. -/
theorem reaches_pass {T : QueueSide} (hopen : ¬T.initDone < cfg.ethTxCores)
    (h : Reaches (step cfg) anyStep (init cfg) ⟨T,.passed 0,false⟩) {m : Nat}
    (hm : m ≤ cfg.ethRxCores) :
    Reaches (step cfg) anyStep (init cfg) ⟨T,.passed m,false⟩ := by
  induction m with
  | zero => exact h
  | succ m ih =>
    refine .tail (a:=.rxPass m) (ih (by omega)) trivial ?_
    have hwait : (QueueSide.passed m).pc m=.wait := by simp [QueueSide.passed]
    have hlt : m < cfg.ethRxCores := hm
    simp only [step,hlt,hwait,hopen,and_self,if_true,if_false,QueueSide.passed_succ]

theorem reaches_rx {T : QueueSide}
    (h : Reaches (step cfg) anyStep (init cfg) ⟨T,.passed cfg.ethRxCores,false⟩) {k : Nat}
    (hc : k ≤ cfg.ethRxCores) (hq : k ≤ cfg.ethRxQueues) :
    Reaches (step cfg) anyStep (init cfg) ⟨T,.dealt cfg.ethRxCores k,false⟩ := by
  induction k with
  | zero =>
    rw [QueueSide.dealt_zero]
    exact h
  | succ k ih =>
    have hk : k < cfg.ethRxCores := hc
    obtain ⟨S,hset,hcount⟩ := QueueSide.dealt_succ hk (show k < cfg.ethRxQueues from hq)
    have h1 : Reaches (step cfg) anyStep (init cfg) ⟨T,S,false⟩ :=
      .tail (a:=.rx k true) (ih (by omega) (by omega)) trivial (by simp [step,hk,hset])
    exact .tail (a:=.rx k true) h1 trivial (by simp [step,hk,hcount])

/-- If no run breaks the barrier there is one TX queue per eth_tx core. -/
theorem txQueues_eq (h : ∀ s,Reaches (step cfg) anyStep (init cfg) s → Barrier cfg s) :
    cfg.ethTxQueues=cfg.ethTxCores := by
  rcases Nat.lt_trichotomy cfg.ethTxQueues cfg.ethTxCores with hlt | heq | hgt
  · have hbar := h _ (reaches_tx (le_of_lt hlt) le_rfl)
    exact absurd hlt (hbar.txOpens fun c hc => QueueSide.dealt_finished (le_of_lt hlt) hc)
  · exact heq
  · have hreach := reaches_pass (lt_irrefl _) (reaches_tx le_rfl (le_of_lt hgt)) (m:=1) cfg.rxCores_pos
    have hready := (h _ hreach).rxAfterTx 0 cfg.rxCores_pos (by simp [QueueSide.passed]) _ hgt
    simp [QueueSide.dealt] at hready

theorem rxQueues_eq (h : ∀ s,Reaches (step cfg) anyStep (init cfg) s → Barrier cfg s) :
    cfg.ethRxQueues=cfg.ethRxCores := by
  have htx := txQueues_eq h
  have hpass := reaches_pass (lt_irrefl _) (reaches_tx le_rfl (le_of_eq htx.symm)) le_rfl
  rcases Nat.lt_trichotomy cfg.ethRxQueues cfg.ethRxCores with hlt | heq | hgt
  · have hbar := h _ (reaches_rx hpass (le_of_lt hlt) le_rfl)
    exact absurd hlt (hbar.rxOpens fun c hc => QueueSide.dealt_finished (le_of_lt hlt) hc)
  · exact heq
  · have hreach : Reaches (step cfg) anyStep (init cfg)
        ⟨.dealt cfg.ethTxCores cfg.ethTxCores,.dealt cfg.ethRxCores cfg.ethRxCores,true⟩ :=
      .tail (a:=.start) (reaches_rx hpass le_rfl (le_of_lt hgt)) trivial
        (by simp [step,QueueSide.dealt])
    have hready := ((h _ hreach).startLast rfl).2 _ hgt
    simp [QueueSide.dealt] at hready

/-- The barrier is exact in every run iff each direction has one queue per core. -/
theorem barrier_exact_iff (cfg : NicConfig) :
    (∀ s,Reaches (step cfg) anyStep (init cfg) s → Barrier cfg s) ↔
      cfg.ethTxQueues=cfg.ethTxCores ∧ cfg.ethRxQueues=cfg.ethRxCores := by
  constructor
  · intro h
    exact ⟨txQueues_eq h,rxQueues_eq h⟩
  · rintro ⟨htx,hrx⟩ s hs
    refine inv_barrier htx hrx (hs.invariant (I:=Inv cfg) (init_inv cfg) ?_)
    intro u t a hi _ ht
    exact step_inv htx hrx hi ht

def client : NicConfig := ⟨1,3,1,15,Nat.one_pos,by decide,Nat.one_pos,by decide⟩

/-- Each eth_tx thread sets up one queue, then the eth_rx thread passes, sets up its queue
and main starts the device. -/
def earlyStart : List StartAct :=
  [.tx 0 true,.tx 0 true,.tx 1 true,.tx 1 true,.tx 2 true,.tx 2 true,.rxPass 0,.rx 0 true,
    .rx 0 true,.start]

theorem client_starts_early : ∃ s,Reaches (step client) anyStep (init client) s ∧
    s.started=true ∧ s.tx.ready 3=false ∧ ¬Barrier client s := by
  have hrun : (guardedRun (step client) anyStep (init client) earlyStart).map
      (fun s => (s.started,s.tx.ready 3))=some (true,false) := by decide +kernel
  obtain ⟨s,hs,hobs⟩ := exists_reaches_of_guardedRun earlyStart _ hrun
  rw [Prod.mk.injEq] at hobs
  refine ⟨s,hs,hobs.1,hobs.2,fun hbar => ?_⟩
  have hready := (hbar.startLast hobs.1).1 3 (by decide)
  rw [hobs.2] at hready
  cases hready

end Startup

end Umanet
