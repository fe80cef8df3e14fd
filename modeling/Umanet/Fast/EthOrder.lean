import Umanet.Fast.Delivery

namespace Umanet

open Framework

/-- Where eth_tx_loop is with a queue: before the dequeue, before rte_eth_tx_burst, or in
network_send with the packets the NIC did not take. -/
inductive EthTxPc (α : Type)
  | idle
  | send (pkts : List α)
  | unsent (rest : List α)

/-- The packets eth_tx_loop has in hand. -/
def EthTxPc.held {α : Type} : EthTxPc α → List α
  | .idle => []
  | .send pkts => pkts
  | .unsent rest => rest

/-- The way from a vhost_rx core to the NIC. A packet goes with the flow key it was polled
with; `pending` is what of the last burst is still to be enqueued to each queue's ring, and
`sent` and `nic` record what each VM has sent and what the NIC has got. -/
structure EthPath (μ : Type) where
  carry : Carry (FlowKey × μ)
  polled : Option Vid
  pending : Nat → List (FlowKey × μ)
  rings : Nat → List (Entry (FlowKey × μ))
  tx : Nat → EthTxPc (Entry (FlowKey × μ))
  nic : List (Entry (FlowKey × μ))
  sent : Vid → List (FlowKey × μ)

/-- `ret` is what rte_eth_tx_burst returns, `acc` how many packets the ring takes back. -/
inductive EthPathAct (μ : Type)
  | poll (x : Burst μ)
  | enqueue (q : Nat)
  | produce (q : Nat) (l : List (FlowKey × μ))
  | dequeue (q : Nat)
  | send (q : Nat) (ret : Int)
  | requeue (q acc : Nat)

variable {μ : Type}

def Burst.keyed (x : Burst μ) : Burst (FlowKey × μ) :=
  ⟨x.vid,x.learning,x.pkts.map fun p => ⟨(flowKey p.data,p.mbuf),p.data,p.route⟩,x.accEth,x.accVm,
    x.accSlow⟩

namespace EthPath

def init : EthPath μ :=
  ⟨.zero,none,fun _ => [],fun _ => [],fun _ => .idle,[],fun _ => []⟩

/-- Steps of the vhost_rx core that polls the VM, of the other producers, and of the eth_tx
cores queue by queue. -/
def step (cfg : Config) (rss : Softrss) (s : EthPath μ) : EthPathAct μ → Option (EthPath μ)
  | .poll x =>
    if x.pkts.length ≤ maxPktBurst ∧ ∀ q < cfg.ethTxQueues,s.pending q=[] then
      (burst cfg rss s.carry x.keyed).map fun o => {s with
        carry:=⟨o.vmPkts,o.ethPkts⟩
        polled:=some x.vid
        pending:=o.eth
        sent:=Function.update s.sent x.vid (s.sent x.vid++x.keyed.pkts.map Polled.mbuf)}
    else none
  | .enqueue q => some {s with
      pending:=Function.update s.pending q []
      rings:=Function.update s.rings q (s.rings q++(s.pending q).map fun m => ⟨s.polled,m⟩)}
  | .produce q l => some {s with
      rings:=Function.update s.rings q (s.rings q++l.map fun m => ⟨none,m⟩)}
  | .dequeue q =>
    match s.tx q with
    | .idle =>
      if (s.rings q).isEmpty then some s
      else some {s with
        tx:=Function.update s.tx q (.send ((s.rings q).take maxPktBurst))
        rings:=Function.update s.rings q ((s.rings q).drop maxPktBurst)}
    | _ => none
  | .send q ret =>
    match s.tx q with
    | .send pkts => some {s with
        nic:=s.nic++pkts.take ret.toNat
        tx:=Function.update s.tx q
          (if ret.toNat < pkts.length then .unsent (pkts.drop ret.toNat) else .idle)}
    | _ => none
  | .requeue q acc =>
    match s.tx q with
    | .unsent rest => some {s with
        rings:=Function.update s.rings q (s.rings q++rest.take acc)
        tx:=Function.update s.tx q .idle}
    | _ => none

/-- When network_send puts packets of VM a back, the ring has no packet of a with the flow
key of one of them. -/
def Clear (a : Vid) (s : EthPath μ) : EthPathAct μ → Prop
  | .requeue q acc => ∀ m∈ofA a ((s.tx q).held.take acc),∀ m'∈ofA a (s.rings q),m'.1≠m.1
  | _ => True

instance (a : Vid) (s : EthPath μ) (x : EthPathAct μ) : Decidable (s.Clear a x) :=
  match x with
  | .requeue q acc => inferInstanceAs
      (Decidable (∀ m∈ofA a ((s.tx q).held.take acc),∀ m'∈ofA a (s.rings q),m'.1≠m.1))
  | .poll _ | .enqueue _ | .produce _ _ | .dequeue _ | .send _ _ => isTrue trivial

end EthPath

def onFlow (k : FlowKey) (l : List (FlowKey × μ)) : List μ :=
  bucket (fun m => decide (m.1=k)) Prod.snd l

def flowOf (a : Vid) (k : FlowKey) (l : List (Entry (FlowKey × μ))) : List μ := onFlow k (ofA a l)

theorem onFlow_append (k : FlowKey) (l l' : List (FlowKey × μ)) :
    onFlow k (l++l')=onFlow k l++onFlow k l' := bucket_append _ _ _ _

theorem flowOf_append (a : Vid) (k : FlowKey) (l l' : List (Entry (FlowKey × μ))) :
    flowOf a k (l++l')=flowOf a k l++flowOf a k l' := by
  rw [flowOf,ofA_append,onFlow_append]
  rfl

theorem onFlow_sublist (k : FlowKey) {l l' : List (FlowKey × μ)} (h : l.Sublist l') :
    (onFlow k l).Sublist (onFlow k l') := (h.filter _).map _

theorem flowOf_sublist (a : Vid) (k : FlowKey) {l l' : List (Entry (FlowKey × μ))}
    (h : l.Sublist l') : (flowOf a k l).Sublist (flowOf a k l') := onFlow_sublist k (ofA_sublist a h)

theorem onFlow_nil {k : FlowKey} {l : List (FlowKey × μ)} (h : ∀ m∈l,m.1≠k) : onFlow k l=[] := by
  rw [onFlow,bucket,List.map_eq_nil_iff,List.filter_eq_nil_iff]
  intro m hm hk
  exact h m hm (of_decide_eq_true hk)

/-- A packet staged for an egress queue is there because of its flow key. -/
theorem keyed_pinned {cfg : Config} {rss : Softrss} (x : Burst μ) {q : Nat} {m : FlowKey × μ}
    (h : m∈sentTo cfg rss (.eth q) x.keyed.pkts) : flowPickTx rss cfg.ethTxQueues m.1=q := by
  obtain ⟨p,hp,rfl⟩ := List.mem_map.mp h
  obtain ⟨hmem,hexit⟩ := List.mem_filter.mp hp
  obtain ⟨p',-,rfl⟩ := List.mem_map.mp hmem
  have he := of_decide_eq_true hexit
  unfold exitOf at he
  split at he
  · cases he
  · split at he
    · split at he <;> cases he
    · exact Exit.eth.inj he

/-- What of the last burst is still to be enqueued to a queue and comes from a. -/
def EthPath.pendingOf (s : EthPath μ) (a : Vid) (q : Nat) : List (FlowKey × μ) :=
  if s.polled=some a then s.pending q else []

/-- The packets of a flow that the NIC has got, that eth_tx_loop has in hand, that are queued
and that are pending are, in this order, a subsequence of what a sent; and every packet of a
is in the queue its flow key chooses. -/
structure FlowOrder (cfg : Config) (rss : Softrss) (a : Vid) (s : EthPath μ) : Prop where
  order : ∀ k q,flowPickTx rss cfg.ethTxQueues k=q →
    (flowOf a k (s.nic++((s.tx q).held++s.rings q))++onFlow k (s.pendingOf a q)).Sublist
      (onFlow k (s.sent a))
  pinned : ∀ q,∀ m∈ofA a ((s.tx q).held++s.rings q),flowPickTx rss cfg.ethTxQueues m.1=q
  pending : ∀ q,∀ m∈s.pending q,flowPickTx rss cfg.ethTxQueues m.1=q
  carry : s.carry=.zero

namespace FlowOrder

variable {cfg : Config} {rss : Softrss} {a : Vid} {s t : EthPath μ}

theorem init (cfg : Config) (rss : Softrss) (a : Vid) :
    FlowOrder cfg rss a (EthPath.init : EthPath μ) where
  order _ _ _ := List.Sublist.refl []
  pinned _ _ hm := absurd hm List.not_mem_nil
  pending _ _ hm := absurd hm List.not_mem_nil
  carry := rfl

/-- A step that keeps, queue by queue, the line of packets from the NIC to the burst. -/
theorem of_line (h : FlowOrder cfg rss a s)
    (hline : ∀ k q,flowPickTx rss cfg.ethTxQueues k=q →
      (flowOf a k (t.nic++((t.tx q).held++t.rings q))++onFlow k (t.pendingOf a q)).Sublist
        (flowOf a k (s.nic++((s.tx q).held++s.rings q))++onFlow k (s.pendingOf a q)))
    (hpinned : ∀ q,∀ m∈ofA a ((t.tx q).held++t.rings q),flowPickTx rss cfg.ethTxQueues m.1=q)
    (hpending : ∀ q,∀ m∈t.pending q,m∈s.pending q) (hsent : t.sent=s.sent := by rfl)
    (hcarry : t.carry=s.carry := by rfl) : FlowOrder cfg rss a t where
  order k q hq := hsent ▸ (hline k q hq).trans (h.order k q hq)
  pinned := hpinned
  pending q m hm := h.pending q m (hpending q m hm)
  carry := hcarry.trans h.carry

theorem poll (h : FlowOrder cfg rss a s) {x : Burst μ}
    (ht : s.step cfg rss (.poll x)=some t) : FlowOrder cfg rss a t := by
  simp only [EthPath.step] at ht
  split at ht
  · next hen =>
    obtain ⟨hlen,hpend⟩ := hen
    obtain ⟨o,ho,rfl⟩ := Option.map_eq_some_iff.mp ht
    have hlen' : x.keyed.pkts.length ≤ maxPktBurst := by simpa [Burst.keyed] using hlen
    rw [h.carry] at ho
    have hout := burst_out hlen' ho
    refine ⟨fun k q hq => ?_,h.pinned,fun q m hm => ?_,hout.carry⟩
    · have hold := h.order k q hq
      have hnone : s.pendingOf a q=[] := by
        have hlt : q < cfg.ethTxQueues := hq ▸ Nat.mod_lt _ cfg.queues_pos
        rw [EthPath.pendingOf,hpend q hlt,ite_self]
      rw [hnone] at hold
      change (_++onFlow k (if some x.vid=some a then o.eth q else [])).Sublist
        (onFlow k (Function.update s.sent x.vid _ a))
      by_cases hx : x.vid=a
      · subst hx
        have hburst : (o.eth q).Sublist (x.keyed.pkts.map Polled.mbuf) := by
          rw [hout.eth q]
          exact (List.take_sublist _ _).trans (List.filter_sublist.map _)
        rw [if_pos rfl,Function.update_self,onFlow_append]
        rw [show onFlow k ([] : List (FlowKey × μ))=[] from rfl,List.append_nil] at hold
        exact hold.append (onFlow_sublist k hburst)
      · rw [if_neg fun e => hx (Option.some.inj e),Function.update_of_ne (Ne.symm hx)]
        exact hold
    · change m∈o.eth q at hm
      rw [hout.eth q] at hm
      exact keyed_pinned x (List.mem_of_mem_take hm)
  · cases ht

theorem enqueue (h : FlowOrder cfg rss a s) {q : Nat}
    (ht : s.step cfg rss (.enqueue q)=some t) : FlowOrder cfg rss a t := by
  have ht' := Option.some.inj ht
  subst ht'
  have hadd : ofA a ((s.pending q).map fun m => ⟨s.polled,m⟩)=s.pendingOf a q := ofA_map a _ _
  refine h.of_line (fun k j hj => ?_) (fun j m hm => ?_) fun j m hm => ?_
  · by_cases hjq : j=q
    · subst hjq
      have hnil : ({s with
          pending:=Function.update s.pending j []
          rings:=Function.update s.rings j (s.rings j++(s.pending j).map fun m => ⟨s.polled,m⟩)} :
            EthPath μ).pendingOf a j=[] := by
        simp [EthPath.pendingOf]
      rw [hnil]
      change (flowOf a k (s.nic++((s.tx j).held++Function.update s.rings j _ j))++[]).Sublist _
      rw [Function.update_self,List.append_nil,← List.append_assoc,← List.append_assoc,flowOf_append,
        ← List.append_assoc,flowOf,flowOf,hadd]
    · have hsame : ({s with
          pending:=Function.update s.pending q []
          rings:=Function.update s.rings q (s.rings q++(s.pending q).map fun m => ⟨s.polled,m⟩)} :
            EthPath μ).pendingOf a j=s.pendingOf a j := by
        simp [EthPath.pendingOf,Function.update_of_ne hjq]
      rw [hsame]
      change (flowOf a k (s.nic++((s.tx j).held++Function.update s.rings q _ j))++_).Sublist _
      rw [Function.update_of_ne hjq]
  · change m∈ofA a ((s.tx j).held++Function.update s.rings q _ j) at hm
    by_cases hjq : j=q
    · subst hjq
      rw [Function.update_self,← List.append_assoc,ofA_append,hadd,List.mem_append] at hm
      rcases hm with hm | hm
      · exact h.pinned j m hm
      · unfold EthPath.pendingOf at hm
        split at hm
        · exact h.pending j m hm
        · exact absurd hm List.not_mem_nil
    · rw [Function.update_of_ne hjq] at hm
      exact h.pinned j m hm
  · change m∈Function.update s.pending q [] j at hm
    by_cases hjq : j=q
    · subst hjq
      rw [Function.update_self] at hm
      exact absurd hm List.not_mem_nil
    · rwa [Function.update_of_ne hjq] at hm

theorem produce (h : FlowOrder cfg rss a s) {q : Nat} {l : List (FlowKey × μ)}
    (ht : s.step cfg rss (.produce q l)=some t) : FlowOrder cfg rss a t := by
  have ht' := Option.some.inj ht
  subst ht'
  have hring : ∀ j,ofA a (Function.update s.rings q (s.rings q++l.map fun m => ⟨none,m⟩) j)=
      ofA a (s.rings j) := by
    intro j
    by_cases hjq : j=q
    · subst hjq
      rw [Function.update_self,ofA_append,ofA_map,if_neg (by simp),List.append_nil]
    · rw [Function.update_of_ne hjq]
  refine h.of_line (fun k j _ => ?_) (fun j m hm => ?_) fun _ _ hm => hm
  · change (flowOf a k (s.nic++((s.tx j).held++Function.update s.rings q _ j))++_).Sublist _
    rw [flowOf,ofA_append,ofA_append,hring j,← ofA_append,← ofA_append]
    exact List.Sublist.refl _
  · change m∈ofA a ((s.tx j).held++Function.update s.rings q _ j) at hm
    rw [ofA_append,hring j,← ofA_append] at hm
    exact h.pinned j m hm

theorem dequeue (h : FlowOrder cfg rss a s) {q : Nat}
    (ht : s.step cfg rss (.dequeue q)=some t) : FlowOrder cfg rss a t := by
  simp only [EthPath.step] at ht
  split at ht
  · next hpc =>
    split at ht
    · have ht' := Option.some.inj ht
      subst ht'
      exact h
    · have ht' := Option.some.inj ht
      subst ht'
      have hline : ∀ j,(Function.update s.tx q (.send ((s.rings q).take maxPktBurst)) j).held++
          Function.update s.rings q ((s.rings q).drop maxPktBurst) j=(s.tx j).held++s.rings j := by
        intro j
        by_cases hjq : j=q
        · subst hjq
          rw [Function.update_self,Function.update_self,hpc]
          exact List.take_append_drop _ _
        · rw [Function.update_of_ne hjq,Function.update_of_ne hjq]
      refine h.of_line (fun k j _ => ?_) (fun j m hm => ?_) fun _ _ hm => hm
      · change (flowOf a k (s.nic++((Function.update s.tx q _ j).held++
          Function.update s.rings q _ j))++_).Sublist _
        rw [hline j]
        exact List.Sublist.refl _
      · change m∈ofA a ((Function.update s.tx q _ j).held++Function.update s.rings q _ j) at hm
        rw [hline j] at hm
        exact h.pinned j m hm
  · cases ht

theorem flowOf_other (h : FlowOrder cfg rss a s) {k : FlowKey} {q : Nat}
    (hq : flowPickTx rss cfg.ethTxQueues k≠q) {l : List (Entry (FlowKey × μ))}
    (hl : l.Sublist ((s.tx q).held++s.rings q)) : flowOf a k l=[] := by
  refine onFlow_nil fun m hm hk => hq ?_
  rw [← hk]
  exact h.pinned q m ((ofA_sublist a hl).mem hm)

theorem send (h : FlowOrder cfg rss a s) {q : Nat} {ret : Int}
    (ht : s.step cfg rss (.send q ret)=some t) : FlowOrder cfg rss a t := by
  simp only [EthPath.step] at ht
  split at ht
  · next pkts hpc =>
    have ht' := Option.some.inj ht
    subst ht'
    have hrest : (if ret.toNat < pkts.length then EthTxPc.unsent (pkts.drop ret.toNat)
        else .idle).held=pkts.drop ret.toNat := by
      split
      · rfl
      · exact (List.drop_of_length_le (by omega)).symm
    have hheld : (s.tx q).held=pkts := by rw [hpc]; rfl
    refine h.of_line (fun k j hj => ?_) (fun j m hm => ?_) fun _ _ hm => hm
    · refine List.Sublist.append ?_ (List.Sublist.refl _)
      change (flowOf a k (s.nic++pkts.take ret.toNat++((Function.update s.tx q _ j).held++
        s.rings j))).Sublist _
      by_cases hjq : j=q
      · subst hjq
        rw [Function.update_self,hrest,List.append_assoc,← List.append_assoc (pkts.take _),
          List.take_append_drop,hheld]
      · have hnone : flowOf a k (pkts.take ret.toNat)=[] := by
          refine h.flowOf_other (q:=q) (fun hk => hjq (hj ▸ hk)) ?_
          rw [hheld]
          exact (List.take_sublist _ _).trans (List.sublist_append_left _ _)
        rw [Function.update_of_ne hjq,flowOf_append,flowOf_append,hnone,List.append_nil,
          ← flowOf_append]
    · change m∈ofA a ((Function.update s.tx q _ j).held++s.rings j) at hm
      by_cases hjq : j=q
      · subst hjq
        rw [Function.update_self,hrest] at hm
        refine h.pinned j m ((ofA_sublist a ?_).mem hm)
        rw [hheld]
        exact (List.drop_sublist _ _).append (List.Sublist.refl _)
      · rw [Function.update_of_ne hjq] at hm
        exact h.pinned j m hm
  · cases ht

/-- Packets put back behind a ring without their flow are behind nothing of it. -/
theorem requeue_sublist {k : FlowKey} {back rest ring : List (Entry (FlowKey × μ))}
    (hback : back.Sublist rest) (hclear : ∀ m∈ofA a back,∀ m'∈ofA a ring,m'.1≠m.1) :
    (flowOf a k (ring++back)).Sublist (flowOf a k (rest++ring)) := by
  rw [flowOf_append,flowOf_append]
  by_cases hk : ∃ m∈ofA a back,m.1=k
  · obtain ⟨m,hm,rfl⟩ := hk
    have hnone : flowOf a m.1 ring=[] := onFlow_nil (hclear m hm)
    rw [hnone,List.nil_append,List.append_nil]
    exact flowOf_sublist a _ hback
  · have hnone : flowOf a k back=[] := onFlow_nil fun m hm he => hk ⟨m,hm,he⟩
    rw [hnone,List.append_nil]
    exact List.sublist_append_right _ _

theorem requeue (h : FlowOrder cfg rss a s) {q acc : Nat} (hg : s.Clear a (.requeue q acc))
    (ht : s.step cfg rss (.requeue q acc)=some t) : FlowOrder cfg rss a t := by
  simp only [EthPath.step] at ht
  split at ht
  · next rest hpc =>
    have ht' := Option.some.inj ht
    subst ht'
    have hheld : (s.tx q).held=rest := by rw [hpc]; rfl
    simp only [EthPath.Clear,hheld] at hg
    have hline : ∀ k j,(flowOf a k ((Function.update s.tx q EthTxPc.idle j).held++
        Function.update s.rings q (s.rings q++rest.take acc) j)).Sublist
          (flowOf a k ((s.tx j).held++s.rings j)) := by
      intro k j
      by_cases hjq : j=q
      · subst hjq
        rw [Function.update_self,Function.update_self,hheld]
        exact requeue_sublist (List.take_sublist _ _) hg
      · rw [Function.update_of_ne hjq,Function.update_of_ne hjq]
    refine h.of_line (fun k j _ => ?_) (fun j m hm => ?_) fun _ _ hm => hm
    · refine List.Sublist.append ?_ (List.Sublist.refl _)
      change (flowOf a k (s.nic++((Function.update s.tx q _ j).held++
        Function.update s.rings q _ j))).Sublist _
      rw [flowOf_append a k s.nic,flowOf_append a k s.nic]
      exact (List.Sublist.refl _).append (hline k j)
    · change m∈ofA a ((Function.update s.tx q _ j).held++Function.update s.rings q _ j) at hm
      by_cases hjq : j=q
      · subst hjq
        rw [Function.update_self,Function.update_self] at hm
        change m∈ofA a (s.rings j++rest.take acc) at hm
        rw [ofA_append,List.mem_append] at hm
        refine h.pinned j m ?_
        rw [hheld,ofA_append,List.mem_append]
        rcases hm with hm | hm
        · exact Or.inr hm
        · exact Or.inl ((ofA_sublist a (List.take_sublist _ _)).mem hm)
      · rw [Function.update_of_ne hjq,Function.update_of_ne hjq] at hm
        exact h.pinned j m hm
  · cases ht

theorem step (h : FlowOrder cfg rss a s) {x : EthPathAct μ} (hg : s.Clear a x)
    (ht : s.step cfg rss x=some t) : FlowOrder cfg rss a t := by
  cases x with
  | poll x => exact h.poll ht
  | enqueue q => exact h.enqueue ht
  | produce q l => exact h.produce ht
  | dequeue q => exact h.dequeue ht
  | send q ret => exact h.send ht
  | requeue q acc => exact h.requeue hg ht

end FlowOrder

/-- In every run in which nothing is put back behind a packet of its own flow, the packets
of a flow reach the NIC in the order in which the VM sent them. -/
theorem flow_in_order_of_clear (cfg : Config) (rss : Softrss) (a : Vid) {s : EthPath μ}
    (h : Reaches (EthPath.step cfg rss) (EthPath.Clear a) .init s) (k : FlowKey) :
    (flowOf a k s.nic).Sublist (onFlow k (s.sent a)) := by
  have hi : FlowOrder cfg rss a s :=
    h.invariant (FlowOrder.init cfg rss a) fun hi hg ht => hi.step hg ht
  have hline := hi.order k _ rfl
  rw [flowOf_append,List.append_assoc] at hline
  exact (List.sublist_append_left _ _).trans hline

def outbound : Data := fun o =>
  if o=12 then 8 else if o=14 then 0x45 else if o=23 then 17 else if o=30 then 10
  else if o=33 then 9 else 0

def outboundBurst (mbufs : List Nat) : Burst Nat where
  vid:=0
  learning:=false
  pkts:=mbufs.map fun m => ⟨m,outbound,initRouteTable⟩
  accEth:=fun _ => 64
  accVm:=fun _ => 0
  accSlow:=0

/-- The NIC takes one of three packets, the others are put back into the empty ring. -/
def refused : List (EthPathAct Nat) :=
  [.poll (outboundBurst [10,11,12]),.enqueue 0,.dequeue 0,.send 0 1,.requeue 0 2,.dequeue 0,
    .send 0 2]

theorem flow_in_order_refused :
    ∃ s,Reaches (EthPath.step smallConfig fun _ _ => 0) (EthPath.Clear 0) .init s ∧
      (flowOf 0 (flowKey outbound) s.nic).Sublist (onFlow (flowKey outbound) (s.sent 0)) ∧
      flowOf 0 (flowKey outbound) s.nic=[10,11,12] := by
  have hrun : (guardedRun (EthPath.step smallConfig fun _ _ => 0) (EthPath.Clear 0) .init refused).map
      (fun s => flowOf 0 (flowKey outbound) s.nic)=some [10,11,12] := by decide +kernel
  obtain ⟨s,hs,hnic⟩ := exists_reaches_of_guardedRun refused _ hrun
  exact ⟨s,hs,flow_in_order_of_clear smallConfig (fun _ _ => 0) 0 hs _,hnic⟩

/-- A third packet enters the ring while the NIC refuses the second. -/
def overtaken : List (EthPathAct Nat) :=
  [.poll (outboundBurst [10,11]),.enqueue 0,.dequeue 0,.poll (outboundBurst [12]),.enqueue 0,
    .send 0 1,.requeue 0 1,.dequeue 0,.send 0 2]

theorem flow_overtaken : ∃ s,Reaches (EthPath.step smallConfig fun _ _ => 0) anyStep .init s ∧
    onFlow (flowKey outbound) (s.sent 0)=[10,11,12] ∧
    flowOf 0 (flowKey outbound) s.nic=[10,12,11] := by
  have hrun : (guardedRun (EthPath.step smallConfig fun _ _ => 0) anyStep .init overtaken).map
      (fun s => (onFlow (flowKey outbound) (s.sent 0),flowOf 0 (flowKey outbound) s.nic))=
        some ([10,11,12],[10,12,11]) := by decide +kernel
  obtain ⟨s,hs,hobs⟩ := exists_reaches_of_guardedRun overtaken _ hrun
  obtain ⟨hsent,hnic⟩ := Prod.ext_iff.mp hobs
  exact ⟨s,hs,hsent,hnic⟩

end Umanet
