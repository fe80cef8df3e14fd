import Umanet.Framework.Run
import Umanet.Fast.VhostRx
import Umanet.Fast.VhostTx

namespace Umanet

open Framework

/-- An entry of a vhost_tx ring with the device whose vhost_rx poll it comes from, if any. -/
structure Entry (μ : Type) where
  src : Option Vid
  mbuf : μ

/-- A vhost_rx core: the arrays that live across bursts, the device polled last, and
what of that burst is still to be enqueued to each ring. -/
structure RxCore (μ : Type) where
  carry : Carry μ
  polled : Option Vid
  pending : Vid → List μ

/-- The plans in force. -/
structure Plans (cfg : Config) where
  rx : Fin cfg.vhostRxCores → List Vid
  tx : Fin cfg.vhostTxCores → List Vid

/-- The cores and rings between VMs; `sent a b` and `delivered b` record what a has
sent to the address of b and what b has got. -/
structure Traffic (cfg : Config) (μ : Type) where
  rx : Fin cfg.vhostRxCores → RxCore μ
  tx : Fin cfg.vhostTxCores → TxCore (Entry μ)
  rings : Vid → List (Entry μ)
  sent : Vid → Vid → List μ
  delivered : Vid → List (Entry μ)

inductive TrafficAct (cfg : Config) (μ : Type)
  | poll (c : Fin cfg.vhostRxCores) (burst : Burst μ)
  | enqueue (c : Fin cfg.vhostRxCores) (dst : Vid)
  | produce (dst : Vid) (mbufs : List μ)
  | tx (c : Fin cfg.vhostTxCores) (a : TxAct)

variable {cfg : Config} {μ : Type}

/-- The destination of a polled packet lies in the local subnet and the route table gives it
to b. -/
def addressedTo (cfg : Config) (b : Vid) (p : Polled μ) : Bool :=
  dstIsLocalSubnet cfg.ip p.data && decide (vidOf (findVidByIp p.route (flowKey p.data).dstIp)=some b)

namespace Traffic

def init : Traffic cfg μ :=
  ⟨fun _ => ⟨.zero,none,fun _ => []⟩,fun _ => .init,fun _ => [],fun _ _ => [],fun _ => []⟩

/-- Steps of the cores, and of the producers other than vhost_rx cores. A ring takes a
prefix of what a burst has for it; how long it is, is part of the burst. -/
def step (rss : Softrss) (plans : Plans cfg) (s : Traffic cfg μ) :
    TrafficAct cfg μ → Option (Traffic cfg μ)
  | .poll c x =>
    if x.vid∈plans.rx c ∧ x.pkts.length ≤ maxPktBurst ∧ ∀ v,(s.rx c).pending v=[] then
      (burst cfg rss (s.rx c).carry x).map fun o => {s with
        rx:=Function.update s.rx c ⟨⟨o.vmPkts,o.ethPkts⟩,some x.vid,o.vm⟩
        sent:=Function.update s.sent x.vid fun b =>
          s.sent x.vid b++bucket (addressedTo cfg b) Polled.mbuf x.pkts}
    else none
  | .enqueue c v => some {s with
      rx:=Function.update s.rx c
        {s.rx c with pending:=Function.update (s.rx c).pending v []}
      rings:=Function.update s.rings v
        (s.rings v++((s.rx c).pending v).map fun m => ⟨(s.rx c).polled,m⟩)}
  | .produce v l => some {s with
      rings:=Function.update s.rings v (s.rings v++l.map fun m => ⟨none,m⟩)}
  | .tx c a =>
    ((s.tx c).step (plans.tx c) s.rings a).map fun o => {s with
      tx:=Function.update s.tx c o.core
      rings:=o.rings
      delivered:=fun v => s.delivered v++o.delivered v}

end Traffic

def ofA (a : Vid) (l : List (Entry μ)) : List μ :=
  bucket (fun e => decide (e.src=some a)) Entry.mbuf l

theorem ofA_append (a : Vid) (l k : List (Entry μ)) : ofA a (l++k)=ofA a l++ofA a k :=
  bucket_append _ _ _ _

theorem ofA_sublist (a : Vid) {l k : List (Entry μ)} (h : l.Sublist k) :
    (ofA a l).Sublist (ofA a k) := (h.filter _).map _

theorem ofA_map (a : Vid) (src : Option Vid) (l : List μ) :
    ofA a (l.map fun m => ⟨src,m⟩)=if src=some a then l else [] := by
  by_cases h : src=some a
  · simp [ofA,bucket,h,List.filter_map,Function.comp_def]
  · simp [ofA,bucket,h,List.filter_map,Function.comp_def]

theorem sentTo_sublist_addressed (rss : Softrss) (b : Vid) (l : List (Polled μ)) :
    (sentTo cfg rss (.vm b) l).Sublist (bucket (addressedTo cfg b) Polled.mbuf l) := by
  refine List.Sublist.map _ (List.monotone_filter_right l fun p hp => ?_)
  have hexit : exitOf cfg rss p=.vm b := of_decide_eq_true hp
  unfold exitOf at hexit
  split at hexit
  · simp at hexit
  · split at hexit
    · rename_i hlocal
      split at hexit
      · rename_i v hv
        rw [addressedTo,hlocal,hv,Exit.vm.inj hexit]
        simp
      · simp at hexit
    · simp at hexit

/-- What of a core's burst is still to be enqueued for b and comes from a. -/
def RxCore.pendingOf (core : RxCore μ) (a b : Vid) : List μ :=
  if core.polled=some a then core.pending b else []

/-- With a in the plan of core r alone and b in the plan of core c alone: a's packets
that b has got, that core c retains or holds, that are queued, and that core r has
pending are, in this order, a subsequence of what a sent. -/
structure InOrder (a b : Vid) (r : Fin cfg.vhostRxCores) (c : Fin cfg.vhostTxCores)
    (s : Traffic cfg μ) : Prop where
  order : (ofA a (s.delivered b++((s.tx c).line b++s.rings b))++(s.rx r).pendingOf a b).Sublist
    (s.sent a b)
  polled : ∀ i,(s.rx i).polled=some a → i=r
  carry : ∀ i,(s.rx i).carry=.zero
  single : ∀ i,(s.tx i).Single
  foreign : ∀ i,i≠c → Foreign b (s.tx i)

namespace InOrder

variable {rss : Softrss} {plans : Plans cfg} {a b : Vid} {r : Fin cfg.vhostRxCores}
  {c : Fin cfg.vhostTxCores} {s t : Traffic cfg μ}

theorem init (a b : Vid) (r : Fin cfg.vhostRxCores) (c : Fin cfg.vhostTxCores) :
    InOrder a b r c (Traffic.init : Traffic cfg μ) := by
  refine ⟨?_,fun i hi => by simp [Traffic.init] at hi,fun _ => rfl,fun _ => TxCore.init_single,
    fun _ _ => Foreign.init b⟩
  exact List.Sublist.refl []

/-- The new burst of a: what is pending for b is behind everything a sent before. -/
theorem poll (h : InOrder a b r c s) (hr : ∀ i,a∈plans.rx i → i=r) {i : Fin cfg.vhostRxCores}
    {x : Burst μ} (ht : s.step rss plans (.poll i x)=some t) : InOrder a b r c t := by
  simp only [Traffic.step] at ht
  split at ht
  · rename_i hen
    obtain ⟨hplan,hlen,hpend⟩ := hen
    obtain ⟨o,ho,rfl⟩ := Option.map_eq_some_iff.mp ht
    rw [h.carry i] at ho
    have hout := burst_out hlen ho
    have hnone : i=r → (s.rx r).pendingOf a b=[] := by
      rintro rfl
      rw [RxCore.pendingOf,hpend b,ite_self]
    refine ⟨?_,?_,?_,h.single,h.foreign⟩
    · change (ofA a (s.delivered b++((s.tx c).line b++s.rings b))++
        (Function.update s.rx i _ r).pendingOf a b).Sublist (Function.update s.sent x.vid _ a b)
      by_cases hxa : x.vid=a
      · have hir : i=r := hr i (hxa ▸ hplan)
        subst hir hxa
        have hold := h.order
        rw [hnone rfl,List.append_nil] at hold
        have htake : (o.vm b).Sublist (bucket (addressedTo cfg b) Polled.mbuf x.pkts) := by
          rw [hout.vm b]
          exact (List.take_sublist _ _).trans (sentTo_sublist_addressed rss b x.pkts)
        rw [Function.update_self,Function.update_self,RxCore.pendingOf,if_pos rfl]
        exact hold.append htake
      · rw [Function.update_of_ne (Ne.symm hxa)]
        by_cases hir : r=i
        · subst hir
          have hold := h.order
          rw [hnone rfl] at hold
          rw [Function.update_self,RxCore.pendingOf,if_neg fun e => hxa (Option.some.inj e)]
          exact hold
        · rw [Function.update_of_ne hir]
          exact h.order
    · refine (Function.forall_update_iff s.rx fun j core => core.polled=some a → j=r).mpr
        ⟨fun e => hr i ?_,fun j _ => h.polled j⟩
      exact Option.some.inj e ▸ hplan
    · exact (Function.forall_update_iff s.rx fun _ core => core.carry=.zero).mpr
        ⟨hout.carry,fun j _ => h.carry j⟩
  · simp at ht

/-- What a core enqueues for b moves from its burst to the end of the ring. -/
theorem enqueue (h : InOrder a b r c s) {i : Fin cfg.vhostRxCores} {v : Vid}
    (ht : s.step rss plans (.enqueue i v)=some t) : InOrder a b r c t := by
  have ht' := Option.some.inj ht
  subst ht'
  refine ⟨?_,?_,?_,h.single,h.foreign⟩
  · change (ofA a (s.delivered b++((s.tx c).line b++Function.update s.rings v _ b))++
      (Function.update s.rx i _ r).pendingOf a b).Sublist (s.sent a b)
    by_cases hv : b=v
    · subst hv
      have hmove : ofA a (s.delivered b++((s.tx c).line b++(s.rings b++
          ((s.rx i).pending b).map fun m => ⟨(s.rx i).polled,m⟩)))=
          ofA a (s.delivered b++((s.tx c).line b++s.rings b))++(s.rx i).pendingOf a b := by
        simp only [ofA_append,List.append_assoc,ofA_map]
        rfl
      rw [Function.update_self,hmove,List.append_assoc]
      by_cases hir : r=i
      · subst hir
        have hempty : ({s.rx r with pending:=Function.update (s.rx r).pending b []} :
            RxCore μ).pendingOf a b=[] := by
          simp [RxCore.pendingOf]
        rw [Function.update_self,hempty,List.append_nil]
        exact h.order
      · have hother : (s.rx i).pendingOf a b=[] := if_neg fun e => hir (h.polled i e).symm
        rw [Function.update_of_ne hir,hother]
        exact h.order
    · rw [Function.update_of_ne hv]
      by_cases hir : r=i
      · subst hir
        have hsame : ({s.rx r with pending:=Function.update (s.rx r).pending v []} :
            RxCore μ).pendingOf a b=(s.rx r).pendingOf a b := by
          simp [RxCore.pendingOf,Function.update_of_ne hv]
        rw [Function.update_self,hsame]
        exact h.order
      · rw [Function.update_of_ne hir]
        exact h.order
  · exact (Function.forall_update_iff s.rx fun j core => core.polled=some a → j=r).mpr
      ⟨h.polled i,fun j _ => h.polled j⟩
  · exact (Function.forall_update_iff s.rx fun _ core => core.carry=.zero).mpr
      ⟨h.carry i,fun j _ => h.carry j⟩

theorem produce (h : InOrder a b r c s) {v : Vid} {l : List μ}
    (ht : s.step rss plans (.produce v l)=some t) : InOrder a b r c t := by
  have ht' := Option.some.inj ht
  subst ht'
  refine ⟨?_,h.polled,h.carry,h.single,h.foreign⟩
  change (ofA a (s.delivered b++((s.tx c).line b++Function.update s.rings v
    (s.rings v++l.map fun m => ⟨none,m⟩) b))++(s.rx r).pendingOf a b).Sublist (s.sent a b)
  by_cases hv : b=v
  · subst hv
    have hring : ofA a (s.rings b++l.map fun m => ⟨none,m⟩)=ofA a (s.rings b) := by
      rw [ofA_append,ofA_map,if_neg (by simp),List.append_nil]
    rw [Function.update_self,ofA_append,ofA_append,hring,← ofA_append,← ofA_append]
    exact h.order
  · rw [Function.update_of_ne hv]
    exact h.order

theorem tx (h : InOrder a b r c s) (hc : ∀ i,b∈plans.tx i → i=c) {i : Fin cfg.vhostTxCores}
    {x : TxAct} (ht : s.step rss plans (.tx i x)=some t) : InOrder a b r c t := by
  simp only [Traffic.step] at ht
  obtain ⟨o,ho,rfl⟩ := Option.map_eq_some_iff.mp ht
  have hstep := TxStep.of_step (h.single i) ho
  have hsingle : ∀ j,(Function.update s.tx i o.core j).Single :=
    (Function.forall_update_iff s.tx fun _ core => core.Single).mpr
      ⟨hstep.single,fun j _ => h.single j⟩
  by_cases hic : i=c
  · subst hic
    refine ⟨?_,h.polled,h.carry,hsingle,fun j hj => ?_⟩
    · change (ofA a (s.delivered b++o.delivered b++((Function.update s.tx i o.core i).line b++o.rings b))++
        (s.rx r).pendingOf a b).Sublist (s.sent a b)
      rw [Function.update_self,List.append_assoc]
      have hsub := (List.Sublist.refl (s.delivered b)).append (hstep.line b)
      exact ((ofA_sublist a hsub).append (List.Sublist.refl _)).trans h.order
    · change Foreign b (Function.update s.tx i o.core j)
      rw [Function.update_of_ne hj]
      exact h.foreign j hj
  · obtain ⟨hf,hring,hdel⟩ := (h.foreign i hic).step (fun hb => hic (hc i hb)) ho
    refine ⟨?_,h.polled,h.carry,hsingle,?_⟩
    · change (ofA a (s.delivered b++o.delivered b++((Function.update s.tx i o.core c).line b++o.rings b))++
        (s.rx r).pendingOf a b).Sublist (s.sent a b)
      rw [Function.update_of_ne (Ne.symm hic),hdel,hring,List.append_nil]
      exact h.order
    · exact (Function.forall_update_iff s.tx fun j core => j≠c → Foreign b core).mpr
        ⟨fun _ => hf,fun j _ => h.foreign j⟩

theorem step (h : InOrder a b r c s) (hr : ∀ i,a∈plans.rx i → i=r) (hc : ∀ i,b∈plans.tx i → i=c)
    {x : TrafficAct cfg μ} (ht : s.step rss plans x=some t) : InOrder a b r c t := by
  cases x with
  | poll i x => exact h.poll hr ht
  | enqueue i v => exact h.enqueue ht
  | produce v l => exact h.produce ht
  | tx i x => exact h.tx hc ht

end InOrder

/-- In every run in which one vhost_rx core polls a and one vhost_tx core serves b, the
packets of a that b has got are a subsequence of those a sent to the address of b; so
none comes twice that a did not send twice. -/
theorem delivery_in_order (rss : Softrss) (plans : Plans cfg) (a b : Vid)
    (r : Fin cfg.vhostRxCores) (c : Fin cfg.vhostTxCores) (hr : ∀ i,a∈plans.rx i ↔ i=r)
    (hc : ∀ i,b∈plans.tx i ↔ i=c) (s : Traffic cfg μ)
    (h : Reaches (Traffic.step rss plans) anyStep Traffic.init s) :
    (ofA a (s.delivered b)).Sublist (s.sent a b) ∧
      ((s.sent a b).Nodup → (ofA a (s.delivered b)).Nodup) := by
  have hinv : InOrder a b r c s := h.invariant (InOrder.init a b r c)
    (fun hi _ ht => hi.step (fun i => (hr i).mp) (fun i => (hc i).mp) ht)
  have hfront : (ofA a (s.delivered b)).Sublist
      (ofA a (s.delivered b++((s.tx c).line b++s.rings b))) :=
    ofA_sublist a (List.sublist_append_left _ _)
  have hsub := (hfront.trans (List.sublist_append_left _ _)).trans hinv.order
  exact ⟨hsub,hsub.nodup⟩

/-- VM 0 is polled by the one vhost_rx core, VM 1 served by the second vhost_tx core. -/
def twoVmPlans : Plans smallConfig := ⟨fun _ => [0],fun c => if c=1 then [1] else []⟩

/-- Three packets of VM 0, of which the middle one goes elsewhere. -/
def mixedBurst : Burst Nat where
  vid:=0
  learning:=false
  pkts:=[⟨10,ipv4Frame 5 6,Function.update initRouteTable 6 1⟩,
    ⟨11,fun o => if o=12 then 8 else 0,initRouteTable⟩,
    ⟨12,ipv4Frame 5 6,Function.update initRouteTable 6 1⟩]
  accEth:=fun _ => 0
  accVm:=fun _ => 64
  accSlow:=0

/-- VM 1 takes nothing at first, then the first packet of the retry buffer. -/
def retriedTrace : List (TrafficAct smallConfig Nat) :=
  [.poll 0 mixedBurst,.produce 1 [77],.enqueue 0 1,.tx 1 .load,.tx 1 (.visit 0 0 0),
    .tx 1 (.send 5 (-1)),.tx 1 .load,.tx 1 (.visit 200000 200001 2)]

theorem delivery_in_order_retried :
    ∃ s,Reaches (Traffic.step (fun _ _ => 0) twoVmPlans) anyStep Traffic.init s ∧
      (ofA 0 (s.delivered 1)).Sublist (s.sent 0 1) ∧ s.sent 0 1=[10,12] ∧
      ofA 0 (s.delivered 1)=[10] := by
  have hrun : (guardedRun (Traffic.step (fun _ _ => 0) twoVmPlans) anyStep .init retriedTrace).map
      (fun s => (s.sent 0 1,ofA 0 (s.delivered 1)))=some ([10,12],[10]) := by decide +kernel
  obtain ⟨s,hs,hf⟩ := exists_reaches_of_guardedRun retriedTrace _ hrun
  obtain ⟨hsent,hdel⟩ := Prod.ext_iff.mp hf
  have hord := delivery_in_order (fun _ _ => 0) twoVmPlans 0 1 0 1 (by decide) (by decide) s hs
  exact ⟨s,hs,hord.1,hsent,hdel⟩

end Umanet
