import Umanet.Framework.Potential
import Umanet.System.Ownership

namespace Umanet

open Framework

variable {μ : Type} {n : Node}

/-- dst_vids names the rows in use, each once. -/
structure Names (dstVids : List Vid) (rows : Vid → List μ) : Prop where
  nodup : dstVids.Nodup
  mem : ∀ v,v∈dstVids ↔ rows v≠[]

theorem Names.nil {rows : Vid → List μ} (h : Names [] rows) : rows=fun _ => [] := by
  funext v
  by_contra hv
  cases (h.mem v).mpr hv

theorem Names.cons {v : Vid} {vs : List Vid} {rows : Vid → List μ} (h : Names (v::vs) rows) :
    rows v≠[] ∧ Names vs (Function.update rows v []) := by
  obtain ⟨hv,hn⟩ := List.nodup_cons.mp h.nodup
  refine ⟨(h.mem v).mp List.mem_cons_self,hn,fun u => ?_⟩
  by_cases hu : u=v
  · subst hu
    simp [hv]
  · rw [Function.update_of_ne hu,← h.mem u,List.mem_cons,or_iff_right hu]

/-- The rows an ingress loop has dealt with are empty, and the others lie ahead of it. -/
def RxThread.Tidy (n : Node) (core : RxThread μ) : Prop :=
  match core.pc with
  | .poll | .slow _ => core.arrays=.zero
  | .eth j dstVids _ => (∀ q,q < j ∨ n.cfg.ethTxQueues ≤ q → core.arrays.ethPkts q=[]) ∧
      Names dstVids core.arrays.vmPkts
  | .vm dstVids _ => core.arrays.ethPkts=(fun _ => []) ∧ Names dstVids core.arrays.vmPkts

/-- An eth_tx core is at one of its queues, with a burst if it has packets at all. -/
def EgressAt.Tidy (n : Node) (c : Fin n.ethTxCores) : EgressAt n.cfg.ethTxQueues μ → Prop
  | .head i => ∃ k,i=c.val+k*n.ethTxCores
  | .send q pkts | .unsent q pkts | .free q pkts =>
    pkts≠[] ∧ pkts.length ≤ maxPktBurst ∧ ∃ k,q.val=c.val+k*n.ethTxCores

theorem EgressAt.tidy_orHead {c : Fin n.ethTxCores} {q : Fin n.cfg.ethTxQueues} {pkts : List μ}
    {pc : EgressAt n.cfg.ethTxQueues μ} (hq : ∃ k,q.val=c.val+k*n.ethTxCores)
    (h : pkts≠[] → pc.Tidy n c) : (EgressAt.orHead n.ethTxCores q pkts pc).Tidy n c := by
  unfold EgressAt.orHead
  split
  · obtain ⟨k,hk⟩ := hq
    exact ⟨k+1,by rw [hk,Nat.succ_mul,Nat.add_assoc]⟩
  · next hne => exact h fun he => hne (List.isEmpty_iff.mpr he)

/-- A vhost_tx core that is about to send has something to send. -/
def TxCore.Busy (core : TxCore μ) : Prop := ∀ v pkts todo,core.pc=.send v pkts todo → pkts≠[]

theorem TxCore.step_busy {core : TxCore μ} {plan : List Vid} {rings : Vid → List μ} {a : TxAct}
    {o : TxOut μ} (h : core.step plan rings a=some o) : o.core.Busy := by
  intro u pkts todo hpc
  cases a with
  | load =>
    simp only [TxCore.step] at h
    split at h
    · obtain rfl := Option.some.inj h
      cases hpc
    · cases h
  | visit start now ret =>
    simp only [TxCore.step] at h
    split at h
    · next v rest _ =>
      obtain rfl := Option.some.inj h
      obtain he | ⟨-,-,hne,he⟩ | ⟨-,he⟩ := core.serve_cases rings start now ret v rest
      · rw [he] at hpc
        cases hpc
      · rw [he] at hpc
        cases hpc
        exact hne
      · rw [he] at hpc
        cases hpc
    · cases h
  | send now ret =>
    simp only [TxCore.step] at h
    split at h
    · obtain rfl := Option.some.inj h
      cases hpc
    · cases h

theorem rxPoll_tidy {b : Burst μ} {st : Staging μ} (hn : b.pkts.length ≤ maxPktBurst)
    (h : stage n.cfg n.rss .zero b=some st) :
    (∀ q,n.cfg.ethTxQueues ≤ q → st.ethPkts q=[]) ∧ Names st.dstVids st.vmPkts := by
  have hspec := stage_spec n.cfg n.rss b hn
  split at hspec
  · obtain ⟨st',hst,hs⟩ := hspec
    obtain rfl : st'=st := Option.some.inj (hst.symm.trans h)
    refine ⟨fun q hq => ?_,hs.nodup,fun v => ?_⟩
    · rw [hs.eth q,sentTo,bucket,List.map_eq_nil_iff,List.filter_eq_nil_iff]
      intro p _ he
      exact absurd (exitOf_eth_lt (of_decide_eq_true he)) (Nat.not_lt.mpr hq)
    · rw [hs.vm v]
      exact hs.mem v
  · rw [h] at hspec
    cases hspec

theorem ethPoll_tidy {base : Ip} {b : EthBurst μ} {st : Staging μ}
    (hn : b.pkts.length ≤ maxPktBurst) (h : ethStage base .zero b=some st) :
    st.ethPkts=(fun _ => []) ∧ Names st.dstVids st.vmPkts := by
  have h0 : EthStaged base b [] ⟨Carry.zero.vmPkts,Carry.zero.ethPkts,[],fun _ => false,[]⟩ :=
    ⟨⟨fun _ => rfl,List.nodup_nil,by simp,by simp [ethSentTo,bucket]⟩,rfl,rfl⟩
  obtain ⟨st',hst,hs,-⟩ | ⟨hnone,-⟩ := foldlM_ethStageOne b.pkts h0 (by simpa using hn)
  · obtain rfl : st'=st := Option.some.inj (hst.symm.trans h)
    refine ⟨hs.eth,hs.rows.nodup,fun v => ?_⟩
    rw [hs.rows.vm v]
    exact hs.rows.mem v
  · rw [ethStage,hnone] at h
    cases h

namespace Dataplane

variable {s t : Dataplane n μ}

/-- What holds between any two steps of the threads: no ring is overfull, and every thread is at
a place of its round that fits what it has. -/
structure Tidy (s : Dataplane n μ) : Prop where
  vmRing : ∀ v,(s.vmRing v).length ≤ ringCap
  ethRing : ∀ q,(s.ethRing q).length ≤ ringCap
  slowRing : s.slowRing.length ≤ ringCap
  rx : ∀ c,(s.rx c).Tidy n
  tx : ∀ c,(s.tx c).Single ∧ (s.tx c).Busy
  ethTx : ∀ c,(s.ethTx c).Tidy n c

theorem tidy_init (pool : List μ) (mem : μ → Data) : (init n pool mem).Tidy where
  vmRing := fun _ => Nat.zero_le _
  ethRing := fun _ => Nat.zero_le _
  slowRing := Nat.zero_le _
  rx := fun _ => rfl
  tx := fun _ => ⟨TxCore.init_single,fun _ _ _ hpc => by cases hpc⟩
  ethTx := fun _ => ⟨0,by simp⟩

theorem Tidy.rx_update (hs : s.Tidy) {c : n.Rx} {core : RxThread μ} (h : core.Tidy n) (d : n.Rx) :
    (Function.update s.rx c core d).Tidy n :=
  (Function.forall_update_iff s.rx (p:=fun _ core => RxThread.Tidy n core)).mpr
    ⟨h,fun d _ => hs.rx d⟩ d

theorem Tidy.ethTx_update (hs : s.Tidy) {c : Fin n.ethTxCores} {pc : EgressAt n.cfg.ethTxQueues μ}
    (h : pc.Tidy n c) (d : Fin n.ethTxCores) : (Function.update s.ethTx c pc d).Tidy n d :=
  (Function.forall_update_iff s.ethTx (p:=fun d pc => EgressAt.Tidy n d pc)).mpr
    ⟨h,fun d _ => hs.ethTx d⟩ d

theorem Tidy.tx_update (hs : s.Tidy) {c : Fin n.cfg.vhostTxCores} {plan : List Vid} {a : TxAct}
    {o : TxOut μ} (h : (s.tx c).step plan s.vmRing a=some o) (d : Fin n.cfg.vhostTxCores) :
    (Function.update s.tx c o.core d).Single ∧ (Function.update s.tx c o.core d).Busy :=
  (Function.forall_update_iff s.tx (p:=fun _ core => core.Single ∧ core.Busy)).mpr
    ⟨⟨(TxStep.of_step (hs.tx c).1 h).single,TxCore.step_busy h⟩,fun d _ => hs.tx d⟩ d

theorem length_update_le {ι : Type} [DecidableEq ι] {f : ι → List μ} {q : ι} {l : List μ}
    (h : ∀ p,(f p).length ≤ ringCap) (hl : l.length ≤ ringCap) (p : ι) :
    (Function.update f q l p).length ≤ ringCap :=
  (Function.forall_update_iff f (p:=fun _ l => l.length ≤ ringCap)).mpr ⟨hl,fun p _ => h p⟩ p

variable [DecidableEq μ]

theorem Tidy.rxPoll {c : Fin n.cfg.vhostRxCores} {vid : Vid} {learning : Bool}
    {pkts : List (Polled μ)} (hs : s.Tidy) (h : s.rxPoll c vid learning pkts=some t) : t.Tidy := by
  unfold Dataplane.rxPoll at h
  split at h
  · next hpc =>
    split at h
    · next hfresh =>
      obtain ⟨st,hst,rfl⟩ := Option.map_eq_some_iff.mp h
      have hzero := hs.rx (.inl c)
      simp only [RxThread.Tidy,hpc] at hzero
      rw [hzero] at hst
      obtain ⟨heth,hnames⟩ := rxPoll_tidy (by simpa using hfresh.2.1) hst
      refine {hs with rx:=hs.rx_update ⟨?_,hnames⟩}
      intro q hq
      exact heth q (hq.resolve_left (Nat.not_lt_zero q))
    · cases h
  · cases h

theorem Tidy.ethPoll {c : Fin n.cfg.ethRxCores} {queue : Nat} {snap : Option VdevList}
    {pkts : List (NicPacket μ)} (hs : s.Tidy) (h : s.ethPoll c queue snap pkts=some t) :
    t.Tidy := by
  unfold Dataplane.ethPoll at h
  split at h
  · next hpc =>
    split at h
    · next hfresh =>
      obtain ⟨st,hst,rfl⟩ := Option.map_eq_some_iff.mp h
      have hzero := hs.rx (.inr c)
      simp only [RxThread.Tidy,hpc] at hzero
      rw [hzero] at hst
      have hnames := ethPoll_tidy (by simpa using hfresh.2.1) hst
      exact {hs with rx:=hs.rx_update hnames}
    · cases h
  · cases h

omit [DecidableEq μ] in
theorem length_take_room {α : Type} {ring l : List α} (h : ring.length ≤ ringCap) :
    (ring++l.take (room ring)).length ≤ ringCap := by
  rw [List.length_append,List.length_take,room]
  omega

theorem Tidy.flushEth {c : n.Rx} {congestion : Int} (hs : s.Tidy)
    (h : s.flushEth c congestion=some t) : t.Tidy := by
  have hrx := hs.rx c
  simp only [Dataplane.flushEth] at h
  split at h
  · next j dstVids msgs hpc =>
    simp only [RxThread.Tidy,hpc] at hrx
    obtain ⟨hdone,hnames⟩ := hrx
    split at h
    · next hj =>
      split at h
      · next hempty =>
        obtain rfl := Option.some.inj h
        refine {hs with rx:=hs.rx_update ⟨?_,hnames⟩}
        intro q hq
        by_cases hqj : q=j
        · rw [hqj]
          exact List.isEmpty_iff.mp hempty
        · exact hdone q (by omega)
      · obtain rfl := Option.some.inj h
        refine {hs with
          ethRing:=length_update_le hs.ethRing (length_take_room (hs.ethRing _))
          rx:=hs.rx_update ⟨?_,hnames⟩}
        intro q hq
        by_cases hqj : q=j
        · rw [hqj]
          exact Function.update_self ..
        · exact (Function.update_of_ne hqj ..).trans (hdone q (by omega))
    · next hj =>
      obtain rfl := Option.some.inj h
      refine {hs with rx:=hs.rx_update ⟨?_,hnames⟩}
      funext q
      exact hdone q (by omega)
  · cases h

theorem Tidy.flushVm {c : n.Rx} {congestion : Int} (hs : s.Tidy)
    (h : s.flushVm c congestion=some t) : t.Tidy := by
  have hrx := hs.rx c
  simp only [Dataplane.flushVm] at h
  split at h
  · next v vs msgs hpc =>
    simp only [RxThread.Tidy,hpc] at hrx
    obtain ⟨heth,hnames⟩ := hrx
    obtain ⟨hv,hrest⟩ := hnames.cons
    split at h
    · next hempty => exact absurd (List.isEmpty_iff.mp hempty) hv
    · obtain rfl := Option.some.inj h
      exact {hs with
        vmRing:=length_update_le hs.vmRing (length_take_room (hs.vmRing v))
        rx:=hs.rx_update ⟨heth,hrest⟩}
  · next msgs hpc =>
    simp only [RxThread.Tidy,hpc] at hrx
    obtain ⟨heth,hnames⟩ := hrx
    obtain rfl := Option.some.inj h
    refine {hs with rx:=hs.rx_update ?_}
    exact congrArg₂ Carry.mk hnames.nil heth
  · cases h

omit [DecidableEq μ] in
theorem Tidy.flushSlow {c : n.Rx} (hs : s.Tidy) (h : s.flushSlow c=some t) : t.Tidy := by
  have hrx := hs.rx c
  unfold Dataplane.flushSlow at h
  split at h
  · next msgs hpc =>
    simp only [RxThread.Tidy,hpc] at hrx
    obtain rfl := Option.some.inj h
    exact {hs with slowRing:=length_take_room hs.slowRing,rx:=hs.rx_update hrx}
  · cases h

theorem vhostTx_vmRing {c : Fin n.cfg.vhostTxCores} {plan : List Vid} {a : TxAct}
    (hs : (s.tx c).Single) (h : s.vhostTx c plan a=some t) (v : Vid) :
    (t.vmRing v).length ≤ (s.vmRing v).length := by
  change (t.held (.vmRing v)).length ≤ (s.held (.vmRing v)).length
  obtain ⟨hq,-⟩ | ⟨u,left,part,ho⟩ | ⟨u,left,part,ho⟩ := vhostTx_cases hs h
  · rw [hq]
  · have hring : t.held (.vmRing v)=Function.update s.held (.vmRing u) left (.vmRing v) :=
      (congrFun ho.held _).trans (by simp [give])
    rw [hring]
    by_cases hv : v=u
    · subst hv
      rw [Function.update_self,← length_eq_of_count ho.all]
      exact Nat.le_add_right ..
    · rw [Function.update_of_ne fun e => hv (Holder.vmRing.inj e)]
  · have hring : t.held (.vmRing v)=s.held (.vmRing v) :=
      (congrFun ho.held _).trans (by simp [give])
    rw [hring]

theorem Tidy.vhostTx {c : Fin n.cfg.vhostTxCores} {plan : List Vid} {a : TxAct} (hs : s.Tidy)
    (h : s.vhostTx c plan a=some t) : t.Tidy := by
  have hring := vhostTx_vmRing (hs.tx c).1 h
  obtain ⟨o,ho,rfl⟩ := Option.map_eq_some_iff.mp h
  exact {hs with
    vmRing:=fun v => (hring v).trans (hs.vmRing v)
    tx:=hs.tx_update ho}

omit [DecidableEq μ] in
theorem Tidy.txRace {c : Fin n.cfg.vhostTxCores} {start : Nat} (hs : s.Tidy)
    (h : s.txRace c start=some t) : t.Tidy := by
  obtain ⟨-,-,⟨o,ho,rfl⟩,-⟩ := txRace_cases h
  exact {hs with tx:=hs.tx_update ho}

omit [DecidableEq μ] in
theorem Tidy.again {c : Fin n.ethTxCores} (hs : s.Tidy) (h : s.again c=some t) : t.Tidy := by
  unfold Dataplane.again at h
  split at h
  · split at h
    · cases h
    · obtain rfl := Option.some.inj h
      exact {hs with ethTx:=hs.ethTx_update ⟨0,by simp⟩}
  · cases h

theorem Tidy.dequeue {c : Fin n.ethTxCores} (hs : s.Tidy) (h : s.dequeue c=some t) : t.Tidy := by
  have hpos := hs.ethTx c
  simp only [Dataplane.dequeue] at h
  split at h
  · next i hpc =>
    rw [hpc] at hpos
    obtain ⟨k,hk⟩ := hpos
    split at h
    · next hi =>
      split at h
      · obtain rfl := Option.some.inj h
        refine {hs with ethTx:=hs.ethTx_update ⟨k+1,?_⟩}
        rw [hk,Nat.succ_mul,Nat.add_assoc]
      · next hne =>
        obtain rfl := Option.some.inj h
        refine {hs with
          ethRing:=length_update_le hs.ethRing ?_
          ethTx:=hs.ethTx_update ⟨fun he => hne (List.isEmpty_iff.mpr he),?_,k,hk⟩}
        · rw [List.length_drop]
          exact (Nat.sub_le ..).trans (hs.ethRing _)
        · exact List.length_take_le ..
    · cases h
  · cases h

omit [DecidableEq μ] in
theorem Tidy.txBurst {c : Fin n.ethTxCores} {num : Nat} (hs : s.Tidy)
    (h : s.txBurst c num=some t) : t.Tidy := by
  have hpos := hs.ethTx c
  unfold Dataplane.txBurst at h
  split at h
  · next q pkts hpc =>
    rw [hpc] at hpos
    obtain ⟨-,hlen,hq⟩ := hpos
    split at h
    · obtain rfl := Option.some.inj h
      refine {hs with ethTx:=hs.ethTx_update (EgressAt.tidy_orHead hq fun hne => ⟨hne,?_,hq⟩)}
      rw [List.length_drop]
      omega
    · cases h
  · cases h

omit [DecidableEq μ] in
theorem Tidy.requeue {c : Fin n.ethTxCores} (hs : s.Tidy) (h : s.requeue c=some t) : t.Tidy := by
  have hpos := hs.ethTx c
  unfold Dataplane.requeue at h
  split at h
  · next q pkts hpc =>
    rw [hpc] at hpos
    obtain ⟨-,hlen,hq⟩ := hpos
    obtain rfl := Option.some.inj h
    refine {hs with
      ethRing:=length_update_le hs.ethRing (length_take_room (hs.ethRing q))
      ethTx:=hs.ethTx_update (EgressAt.tidy_orHead hq fun hne => ⟨hne,?_,hq⟩)}
    rw [List.length_drop]
    omega
  · cases h

omit [DecidableEq μ] in
theorem Tidy.freeOne {c : Fin n.ethTxCores} (hs : s.Tidy) (h : s.freeOne c=some t) : t.Tidy := by
  have hpos := hs.ethTx c
  unfold Dataplane.freeOne at h
  split at h
  · next q pkts hpc =>
    rw [hpc] at hpos
    obtain ⟨-,hlen,hq⟩ := hpos
    obtain ⟨m,hm,rfl⟩ := Option.map_eq_some_iff.mp h
    refine {hs with ethTx:=hs.ethTx_update (EgressAt.tidy_orHead hq fun hne => ⟨hne,?_,hq⟩)}
    rw [List.length_dropLast]
    omega
  · cases h

omit [DecidableEq μ] in
theorem Tidy.slowEnqueue (hs : s.Tidy) (h : s.slowEnqueue=some t) : t.Tidy := by
  unfold Dataplane.slowEnqueue at h
  split at h
  · split at h
    · next hroom =>
      obtain rfl := Option.some.inj h
      refine {hs with vmRing:=length_update_le hs.vmRing ?_}
      rw [List.length_append]
      exact hroom
    · obtain rfl := Option.some.inj h
      exact {hs with}
  · cases h

theorem Tidy.step {a : DataAct n μ} (hs : s.Tidy) (h : s.step a=some t) : t.Tidy := by
  cases a with
  | rxPoll c vid learning pkts => exact hs.rxPoll h
  | ethPoll c queue snap pkts => exact hs.ethPoll h
  | flushEth c congestion => exact hs.flushEth h
  | flushVm c congestion => exact hs.flushVm h
  | flushSlow c => exact hs.flushSlow h
  | tx c plan a => exact hs.vhostTx h
  | txRace c start => exact hs.txRace h
  | again c => exact hs.again h
  | dequeue c => exact hs.dequeue h
  | txBurst c num => exact hs.txBurst h
  | requeue c => exact hs.requeue h
  | freeOne c => exact hs.freeOne h
  | nicDone q =>
    simp only [Dataplane.step] at h
    split at h
    · obtain rfl := Option.some.inj h
      exact {hs with}
    · cases h
  | slowDequeue =>
    simp only [Dataplane.step] at h
    split at h
    · obtain rfl := Option.some.inj h
      refine {hs with slowRing:=?_}
      change (s.slowRing.drop maxPktBurst).length ≤ ringCap
      rw [List.length_drop]
      exact (Nat.sub_le ..).trans hs.slowRing
    · cases h
  | slowNext present =>
    simp only [Dataplane.step,Dataplane.slowNext] at h
    split at h
    · split at h
      · obtain rfl := Option.some.inj h
        exact {hs with}
      · split at h
        · obtain rfl := Option.some.inj h
          exact {hs with}
        · obtain rfl := Option.some.inj h
          exact {hs with}
    · cases h
  | slowEnqueue => exact hs.slowEnqueue h
  | slowFree =>
    simp only [Dataplane.step] at h
    split at h
    · obtain rfl := Option.some.inj h
      exact {hs with}
    · cases h

end Dataplane

end Umanet
