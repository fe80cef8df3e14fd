import Umanet.Framework.Custody
import Umanet.Framework.Run
import Umanet.Fast.VhostRx

namespace Umanet

open Framework

/-- The number of objects init_dataplane_ctxs creates `msg_pool` with. -/
def poolSize : Nat := 8191

/-- A `struct slow_msg` of the pool. -/
abbrev MsgId := Fin poolSize

instance (o : MsgId) (l : List MsgId) : Decidable (o∈l) := List.instDecidableMemOfLawfulBEq o l

/-- The fields of a slow_msg other than its mbuf; `vid` is a uint16. An object keeps them
while it is free. -/
structure MsgFields where
  reason : SlowReason
  fromEth : Bool
  ethQueueId : Nat
  vid : Nat

/-- What an ingress loop writes into an object it got: vhost_rx_loop sets vid, eth_rx_loop
does not. -/
inductive MsgRequest
  | vhost (reason : SlowReason) (vid : Vid)
  | eth (queue : Nat)

def MsgRequest.fill (f : MsgFields) : MsgRequest → MsgFields
  | .vhost reason vid => {f with reason:=reason,fromEth:=false,vid:=vid.val}
  | .eth queue => {f with reason:=.arpReq,fromEth:=true,ethQueueId:=queue}

/-- The vid the producer of a message has written into it. -/
def MsgRequest.setVid : MsgRequest → Option Nat
  | .vhost _ vid => some vid.val
  | .eth _ => none

/-- The common part of the message pool, the cache that the pool keeps for each ingress lcore and
for that of slowpath_loop, slowpath_ring, `slow_msgs` of each ingress core inside a burst, and of
slowpath_loop with its vdev_list. `undefined` is set by a use of an uninitialised pointer or
an access outside an array. -/
structure MsgPool (cores : Nat) where
  pool : List MsgId
  caches : Fin cores → List MsgId
  slowCache : List MsgId
  ring : List MsgId
  fields : MsgId → MsgFields
  staged : Fin cores → Option (List MsgId)
  batch : Option (VdevList × List MsgId)
  undefined : Bool

/-- Which free object rte_mempool_get returns, when it fills a cache and when rte_mempool_put
empties one is up to the pool. -/
inductive MsgPoolAct (cores : Nat)
  | poll (c : Fin cores)
  | refill (c : Fin cores) (o : MsgId)
  | get (c : Fin cores) (r : MsgRequest) (o : MsgId)
  | flush (c : Fin cores) (accepted : Nat)
  | take (snap : VdevList)
  | handle
  | spill (o : MsgId)
  | finish

namespace MsgPool

variable {cores : Nat}

def init (fields : MsgId → MsgFields) : MsgPool cores :=
  ⟨List.finRange poolSize,fun _ => [],[],[],fields,fun _ => none,none,false⟩

/-- rte_mempool_get takes from the core's own cache, and from the common part only when that is
empty; it does not see the caches of other lcores. Its return value is not looked at: when it
fails the pointer is not set. What the ring does not accept, and a message whose device is gone,
is put back nowhere. -/
def step (s : MsgPool cores) : MsgPoolAct cores → Option (MsgPool cores)
  | .poll c =>
    match s.staged c with
    | none => some {s with staged:=Function.update s.staged c (some [])}
    | some _ => none
  | .refill c o =>
    if o∈s.pool then some {s with
      pool:=s.pool.erase o
      caches:=Function.update s.caches c (s.caches c++[o])}
    else none
  | .get c r o =>
    match s.staged c with
    | some l =>
      if maxPktBurst ≤ l.length ∨ s.caches c=[] ∧ s.pool=[] then some {s with undefined:=true}
      else if o∈s.caches c then some {s with
        caches:=Function.update s.caches c ((s.caches c).erase o)
        fields:=Function.update s.fields o (r.fill (s.fields o))
        staged:=Function.update s.staged c (some (l++[o]))}
      else if s.caches c=[] ∧ o∈s.pool then some {s with
        pool:=s.pool.erase o
        fields:=Function.update s.fields o (r.fill (s.fields o))
        staged:=Function.update s.staged c (some (l++[o]))}
      else none
    | none => none
  | .flush c accepted =>
    match s.staged c with
    | some l => some {s with
        ring:=s.ring++l.take accepted
        staged:=Function.update s.staged c none}
    | none => none
  | .take snap =>
    match s.batch with
    | none => some {s with
        ring:=s.ring.drop maxPktBurst
        batch:=some (snap,s.ring.take maxPktBurst)}
    | some _ => none
  | .handle =>
    match s.batch with
    | some (snap,o::rest) =>
      if h : (s.fields o).vid < maxVhosts then
        if snap.live ⟨(s.fields o).vid,h⟩ then
          some {s with slowCache:=s.slowCache++[o],batch:=some (snap,rest)}
        else some {s with batch:=some (snap,rest)}
      else some {s with undefined:=true}
    | _ => none
  | .spill o =>
    if o∈s.slowCache then some {s with pool:=s.pool++[o],slowCache:=s.slowCache.erase o} else none
  | .finish =>
    match s.batch with
    | some (_,[]) => some {s with batch:=none}
    | _ => none

/-- The messages a core has in `slow_msgs`. -/
def held (s : MsgPool cores) (c : Fin cores) : List MsgId := (s.staged c).getD []

/-- The messages slowpath_loop has dequeued and not handled. -/
def inBatch (s : MsgPool cores) : List MsgId := (s.batch.map Prod.snd).getD []

/-- The number of messages on their way to the slow path. -/
def inFlight (s : MsgPool cores) : Nat :=
  (s.ring++s.inBatch).length+∑ c,(s.held c).length

def cachedElsewhere (s : MsgPool cores) (c : Fin cores) : Nat :=
  s.slowCache.length+∑ d∈Finset.univ.erase c,(s.caches d).length

/-- How often an object is free: in the common part of the pool or in a cache. -/
def freeCount (s : MsgPool cores) (o : MsgId) : Nat :=
  s.pool.count o+s.slowCache.count o+∑ c,(s.caches c).count o

def Quiescent (s : MsgPool cores) : Prop := (∀ c,s.staged c=none) ∧ s.batch=none

/-- The ring accepts whole bursts, a message is handled while its vid is that of a device in
the list, and for each new message there is an object neither in flight nor in the cache of
another lcore, and a free slot. -/
def Kept (s : MsgPool cores) : MsgPoolAct cores → Prop
  | .get c _ _ => s.inFlight+s.cachedElsewhere c < poolSize ∧ (s.held c).length < maxPktBurst
  | .flush c accepted => (s.held c).length ≤ accepted
  | .handle => ∀ snap o rest,s.batch=some (snap,o::rest) →
      ∃ h : (s.fields o).vid < maxVhosts,snap.live ⟨(s.fields o).vid,h⟩=true
  | _ => True

/-- What an ingress core has of the pool, free in its cache or in `slow_msgs`. -/
def own (s : MsgPool cores) (c : Fin cores) : List MsgId := s.caches c++s.held c

/-- Every object is in one place, and there once. -/
structure Inv (s : MsgPool cores) : Prop where
  once : ∀ o,(s.pool++s.slowCache).count o+(s.ring++s.inBatch).count o+∑ c,(s.own c).count o=1
  defined : s.undefined=false

variable {s t : MsgPool cores}

theorem init_inv (fields : MsgId → MsgFields) : Inv (init fields : MsgPool cores) where
  once o := by
    have hcount : (List.finRange poolSize).count o=1 :=
      List.count_eq_one_of_mem (List.nodup_finRange _) (List.mem_finRange o)
    have hsum : ∑ c : Fin cores,((init fields : MsgPool cores).own c).count o=0 :=
      Finset.sum_eq_zero fun _ _ => rfl
    rw [hsum,init,inBatch,Option.map_none,Option.getD_none,List.append_nil,List.append_nil,
      List.count_nil,hcount]
  defined := rfl

theorem sum_own (s : MsgPool cores) (o : MsgId) :
    ∑ c,(s.own c).count o=∑ c,(s.caches c).count o+∑ c,(s.held c).count o := by
  rw [← Finset.sum_add_distrib]
  exact Finset.sum_congr rfl fun c _ => List.count_append

/-- With fewer objects than all in flight or in other caches, core c can get one. -/
theorem Inv.can_get (h : Inv s) {c : Fin cores}
    (hlt : s.inFlight+s.cachedElsewhere c < poolSize) : ¬(s.caches c=[] ∧ s.pool=[]) := by
  rintro ⟨hcache,hpool⟩
  have hlen := length_of_once (s.pool++s.slowCache) (s.ring++s.inBatch) s.own h.once
  have hown : ∑ d,(s.own d).length=∑ d,(s.caches d).length+∑ d,(s.held d).length := by
    rw [← Finset.sum_add_distrib]
    exact Finset.sum_congr rfl fun d _ => List.length_append
  have hrest := Finset.add_sum_erase Finset.univ (fun d => (s.caches d).length) (Finset.mem_univ c)
  simp only [hcache,List.length_nil,Nat.zero_add] at hrest
  rw [hpool,hown,Fintype.card_fin,List.nil_append] at hlen
  unfold inFlight cachedElsewhere at hlt
  omega

/-- How the sum over the cores changes when one core's objects do. -/
theorem sum_own_change {s t : MsgPool cores} (c : Fin cores) (h : ∀ d≠c,t.own d=s.own d) (o : MsgId) :
    ∑ d,(t.own d).count o+(s.own c).count o=∑ d,(s.own d).count o+(t.own c).count o := by
  apply sum_change (f:=fun d => (s.own d).count o) (g:=fun d => (t.own d).count o) c
  intro d hd
  rw [h d hd]

theorem held_of_staged {c : Fin cores} {l : List MsgId} (h : s.staged c=some l) : s.held c=l := by
  rw [held,h,Option.getD_some]

theorem inBatch_of_batch {snap : VdevList} {l : List MsgId} (h : s.batch=some (snap,l)) :
    s.inBatch=l := by
  rw [inBatch,h,Option.map_some,Option.getD_some]

theorem count_erase_add {l : List MsgId} {o : MsgId} (ho : o∈l) (o' : MsgId) :
    (l.erase o).count o'+[o].count o'=l.count o' := by
  rw [← List.count_append]
  exact ((List.perm_append_comm.trans (List.perm_cons_erase ho).symm).count_eq o')

/-- A step that moves objects between the pool and one core keeps the places. -/
theorem Inv.move (h : Inv s) (c : Fin cores) (hown : ∀ d≠c,t.own d=s.own d)
    (hring : t.ring++t.inBatch=s.ring++s.inBatch) (hdef : t.undefined=s.undefined)
    (hcount : ∀ o,(t.pool++t.slowCache).count o+(t.own c).count o=
      (s.pool++s.slowCache).count o+(s.own c).count o) : Inv t := by
  refine ⟨fun o => ?_,hdef.trans h.defined⟩
  have hsum := sum_own_change c hown o
  have honce := h.once o
  have hc := hcount o
  rw [hring]
  omega

theorem Inv.poll (h : Inv s) {c : Fin cores} (ht : s.step (.poll c)=some t) : Inv t := by
  simp only [step] at ht
  split at ht
  · next hc =>
    have ht' := Option.some.inj ht
    subst ht'
    refine h.move c (fun d hd => ?_) rfl rfl fun o => ?_
    · simp [own,held,Function.update_of_ne hd]
    · simp [own,held,hc]
  · cases ht

theorem Inv.refill (h : Inv s) {c : Fin cores} {o : MsgId} (ht : s.step (.refill c o)=some t) :
    Inv t := by
  simp only [step] at ht
  split at ht
  · next ho =>
    have ht' := Option.some.inj ht
    subst ht'
    refine h.move c (fun d hd => ?_) rfl rfl fun o' => ?_
    · simp [own,held,Function.update_of_ne hd]
    · have hone := count_erase_add ho o'
      simp only [own,held,Function.update_self,List.count_append]
      omega
  · cases ht

theorem Inv.get (h : Inv s) {c : Fin cores} {r : MsgRequest} {o : MsgId}
    (hg : s.Kept (.get c r o)) (ht : s.step (.get c r o)=some t) : Inv t := by
  simp only [step] at ht
  split at ht
  · next l hc =>
    have hheld := held_of_staged hc
    split at ht
    · next hbad =>
      rcases hbad with hfull | hnone
      · exact absurd hfull (Nat.not_le.mpr (hheld ▸ hg.2))
      · exact absurd hnone (h.can_get hg.1)
    · split at ht
      · next ho =>
        have ht' := Option.some.inj ht
        subst ht'
        refine h.move c (fun d hd => ?_) rfl rfl fun o' => ?_
        · simp [own,held,Function.update_of_ne hd]
        · have hone := count_erase_add ho o'
          simp only [own,hheld,List.count_append]
          simp only [held,Function.update_self,Option.getD_some,List.count_append]
          omega
      · split at ht
        · next ho =>
          have ht' := Option.some.inj ht
          subst ht'
          refine h.move c (fun d hd => ?_) rfl rfl fun o' => ?_
          · simp [own,held,Function.update_of_ne hd]
          · have hone := count_erase_add ho.2 o'
            simp only [own,hheld,List.count_append]
            simp only [held,Function.update_self,Option.getD_some,List.count_append]
            omega
        · cases ht
  · cases ht

theorem Inv.flush (h : Inv s) {c : Fin cores} {accepted : Nat} (hg : s.Kept (.flush c accepted))
    (ht : s.step (.flush c accepted)=some t) : Inv t := by
  simp only [step] at ht
  split at ht
  · next l hc =>
    have hheld := held_of_staged hc
    have ht' := Option.some.inj ht
    subst ht'
    refine ⟨fun o => ?_,h.defined⟩
    have hsum := sum_own_change (s:=s)
      (t:={s with ring:=s.ring++l.take accepted,staged:=Function.update s.staged c none}) c
      (fun d hd => by simp [own,held,Function.update_of_ne hd]) o
    have honce := h.once o
    simp only [Kept,hheld] at hg
    change (s.pool++s.slowCache).count o+(s.ring++l.take accepted++s.inBatch).count o+_=1
    rw [List.take_of_length_le hg]
    simp only [own,held,Function.update_self,Option.getD_none,hc,Option.getD_some,List.count_append,
      List.count_nil] at hsum honce ⊢
    omega
  · cases ht

theorem Inv.take (h : Inv s) {snap : VdevList} (ht : s.step (.take snap)=some t) : Inv t := by
  simp only [step] at ht
  split at ht
  · next hb =>
    have ht' := Option.some.inj ht
    subst ht'
    refine ⟨fun o => ?_,h.defined⟩
    have honce := h.once o
    have hnil : s.inBatch=[] := by rw [inBatch,hb]; rfl
    have hring : (s.ring.drop maxPktBurst++s.ring.take maxPktBurst).count o=s.ring.count o := by
      rw [List.count_append,Nat.add_comm,← List.count_append,List.take_append_drop]
    rw [hnil,List.append_nil] at honce
    change (s.pool++s.slowCache).count o+(s.ring.drop maxPktBurst++s.ring.take maxPktBurst).count o+
      ∑ d,(s.own d).count o=1
    rw [hring]
    exact honce
  · cases ht

theorem Inv.handle (h : Inv s) (hg : s.Kept .handle) (ht : s.step .handle=some t) : Inv t := by
  simp only [step] at ht
  split at ht
  · next snap o rest hb =>
    obtain ⟨hv,hlive⟩ := hg snap o rest hb
    rw [dif_pos hv,if_pos hlive] at ht
    have ht' := Option.some.inj ht
    subst ht'
    refine ⟨fun o' => ?_,h.defined⟩
    have honce := h.once o'
    rw [inBatch_of_batch hb] at honce
    change (s.pool++(s.slowCache++[o])).count o'+(s.ring++rest).count o'+∑ d,(s.own d).count o'=1
    simp only [List.count_append,List.count_cons,List.count_nil] at honce ⊢
    omega
  · cases ht

theorem Inv.spill (h : Inv s) {o : MsgId} (ht : s.step (.spill o)=some t) : Inv t := by
  simp only [step] at ht
  split at ht
  · next ho =>
    have ht' := Option.some.inj ht
    subst ht'
    refine ⟨fun o' => ?_,h.defined⟩
    have honce := h.once o'
    have hone := count_erase_add ho o'
    change (s.pool++[o]++s.slowCache.erase o).count o'+(s.ring++s.inBatch).count o'+
      ∑ d,(s.own d).count o'=1
    simp only [List.count_append] at honce ⊢
    omega
  · cases ht

theorem Inv.finish (h : Inv s) (ht : s.step .finish=some t) : Inv t := by
  simp only [step] at ht
  split at ht
  · next snap hb =>
    have ht' := Option.some.inj ht
    subst ht'
    refine ⟨fun o => ?_,h.defined⟩
    have honce := h.once o
    rw [inBatch_of_batch hb] at honce
    exact honce
  · cases ht

theorem step_inv (h : Inv s) {x : MsgPoolAct cores} (hg : s.Kept x) (ht : s.step x=some t) :
    Inv t := by
  cases x with
  | poll c => exact h.poll ht
  | refill c o => exact h.refill ht
  | get c r o => exact h.get hg ht
  | flush c accepted => exact h.flush hg ht
  | take snap => exact h.take ht
  | handle => exact h.handle hg ht
  | spill o => exact h.spill ht
  | finish => exact h.finish ht

/-- In every run that keeps its messages no pointer is used that rte_mempool_get has not
set, and whenever no core is inside a burst every object is free in the pool, its caches
included, or in the ring, once. -/
theorem pool_conserved_of_kept (fields : MsgId → MsgFields)
    (h : Reaches step Kept (init fields) s) :
    s.undefined=false ∧ (s.Quiescent → ∀ o,s.freeCount o+s.ring.count o=1) := by
  have hi : Inv s := h.invariant (init_inv fields) fun hi hg ht => step_inv hi hg ht
  refine ⟨hi.defined,fun hq o => ?_⟩
  have honce := hi.once o
  have hsum : ∑ c,(s.held c).count o=0 := Finset.sum_eq_zero fun c _ => by
    rw [held,hq.1 c]
    rfl
  have hbatch : s.inBatch=[] := by rw [inBatch,hq.2]; rfl
  rw [sum_own,hsum,hbatch,List.append_nil,List.count_append] at honce
  unfold freeCount
  omega

section
variable (fields : MsgId → MsgFields) (o : MsgId) (vid : Vid)

def polled : MsgPool 1 := {(init fields : MsgPool 1) with staged:=fun _ => some []}

def requested : MsgPool 1 where
  pool:=(List.finRange poolSize).erase o
  caches:=fun _ => []
  slowCache:=[]
  ring:=[]
  fields:=Function.update fields o ((MsgRequest.vhost .arpReq vid).fill (fields o))
  staged:=fun _ => some [o]
  batch:=none
  undefined:=false

def queued : MsgPool 1 := {requested fields o vid with ring:=[o],staged:=fun _ => none}

/-- slowpath_loop has the message in hand, with the list it loaded. -/
def taken (snap : VdevList) : MsgPool 1 :=
  {requested fields o vid with staged:=fun _ => none,batch:=some (snap,[o])}

def rested (cached : List MsgId) : MsgPool 1 :=
  {requested fields o vid with slowCache:=cached,staged:=fun _ => none}

theorem update_one {β : Type} (f : Fin 1 → β) (x : β) : Function.update f 0 x=fun _ => x := by
  funext c
  rw [Subsingleton.elim c 0,Function.update_self]

theorem init_poll : (init fields).step (.poll 0)=some (polled fields) := by
  simp [step,init,polled,update_one]

theorem polled_get : (polled fields).step (.get 0 (.vhost .arpReq vid) o)=
    some (requested fields o vid) := by
  have hpool : List.finRange poolSize≠[] := List.ne_nil_of_mem (List.mem_finRange o)
  simp [step,init,polled,requested,update_one,maxPktBurst,hpool]

theorem requested_flush : (requested fields o vid).step (.flush 0 1)=some (queued fields o vid) := by
  simp [step,requested,queued,update_one]

theorem requested_refused : (requested fields o vid).step (.flush 0 0)=
    some (rested fields o vid []) := by
  simp [step,requested,rested,update_one]

theorem queued_take (snap : VdevList) : (queued fields o vid).step (.take snap)=
    some (taken fields o vid snap) := by
  simp [step,requested,queued,taken,maxPktBurst]

theorem taken_vid (snap : VdevList) : ((taken fields o vid snap).fields o).vid=vid.val := by
  simp [taken,requested,MsgRequest.fill]

/-- What handling the message does, with and without its device in the list. -/
theorem taken_handle (snap : VdevList) : (taken fields o vid snap).step .handle=some
    {taken fields o vid snap with
      slowCache:=if snap.live vid then [o] else []
      batch:=some (snap,[])} := by
  have hlt : ((taken fields o vid snap).fields o).vid < maxVhosts := by
    rw [taken_vid]
    exact vid.isLt
  have hdev : (⟨((taken fields o vid snap).fields o).vid,hlt⟩ : Vid)=vid :=
    Fin.ext (taken_vid fields o vid snap)
  have hbatch : (taken fields o vid snap).batch=some (snap,[o]) := rfl
  simp only [step,hbatch,dif_pos hlt,hdev]
  by_cases hl : snap.live vid=true
  · simp [hl,taken,requested]
  · simp [hl,taken,requested]

theorem taken_finish (snap : VdevList) (cached : List MsgId) :
    ({taken fields o vid snap with slowCache:=cached,batch:=some (snap,[])} : MsgPool 1).step
      .finish=some (rested fields o vid cached) := by
  simp [step,taken,rested,requested]

theorem taken_kept {snap : VdevList} (hl : snap.live vid=true) :
    (taken fields o vid snap).Kept .handle := by
  intro snap' o' rest hb
  obtain ⟨rfl,hb'⟩ := Prod.mk.inj (Option.some.inj hb)
  obtain ⟨rfl,-⟩ := List.cons.inj hb'
  have hvid := taken_vid fields o vid snap
  refine ⟨hvid ▸ vid.isLt,?_⟩
  simp only [hvid]
  exact hl

theorem reaches_handled {snap : VdevList} (hl : snap.live vid=true) : Reaches step Kept (init fields)
    (rested fields o vid [o]) := by
  have hpoll : Reaches step Kept (init fields) (polled fields) :=
    .tail (a:=.poll 0) .refl trivial (init_poll fields)
  have hget : Reaches step Kept (init fields) (requested fields o vid) := by
    refine .tail (a:=.get 0 (.vhost .arpReq vid) o) hpoll ⟨?_,?_⟩ (polled_get fields o vid)
    · simp [inFlight,inBatch,held,cachedElsewhere,polled,init,poolSize]
    · simp [held,polled,maxPktBurst]
  have hflush : Reaches step Kept (init fields) (queued fields o vid) :=
    .tail (a:=.flush 0 1) hget (by simp [Kept,held,requested]) (requested_flush fields o vid)
  have htake : Reaches step Kept (init fields) (taken fields o vid snap) :=
    .tail (a:=.take snap) hflush trivial (queued_take fields o vid snap)
  have hhandle := taken_handle fields o vid snap
  rw [if_pos hl] at hhandle
  exact .tail (a:=.finish) (htake.tail (taken_kept fields o vid hl) hhandle) trivial
    (taken_finish ..)

theorem rested_quiescent (cached : List MsgId) : (rested fields o vid cached).Quiescent :=
  ⟨fun _ => rfl,rfl⟩

theorem rested_lost :
    (rested fields o vid []).freeCount o+(rested fields o vid []).ring.count o=0 := by
  have hcount := List.count_eq_one_of_mem (List.nodup_finRange _) (List.mem_finRange o)
  simp [freeCount,rested,requested,List.count_erase_self,hcount]

end

def message : MsgId := ⟨0,by decide⟩

def blank : MsgId → MsgFields := fun _ => ⟨.arpReq,false,0,0⟩

/-- A request of VM 3 that is handled while the VM is there. -/
theorem pool_conserved_handled : ∃ s : MsgPool 1,Reaches step Kept (init blank) s ∧ s.Quiescent ∧
    ∀ o,s.freeCount o+s.ring.count o=1 := by
  have hlive : (VdevList.empty.insert 3 10).live 3=true := by decide
  have hreach := reaches_handled blank message 3 hlive
  have hq := rested_quiescent blank message 3 [message]
  exact ⟨_,hreach,hq,(pool_conserved_of_kept blank hreach).2 hq⟩

def refusedRun : List (MsgPoolAct 1) :=
  [.poll 0,.get 0 (.vhost .arpReq 3) message,.flush 0 0]

def goneRun : List (MsgPoolAct 1) :=
  [.poll 0,.get 0 (.vhost .arpReq 3) message,.flush 0 1,.take .empty,.handle,.finish]

/-- Message 0 is then neither free nor in the ring. -/
theorem pool_leaks :
    (∃ s,run step (init blank) refusedRun=some s ∧ s.Quiescent ∧
      s.freeCount message+s.ring.count message=0) ∧
    ∃ s,run step (init blank) goneRun=some s ∧ s.Quiescent ∧
      s.freeCount message+s.ring.count message=0 := by
  have hlost := rested_lost blank message 3
  have hq := rested_quiescent blank message 3 []
  have hhandle := taken_handle blank message 3 .empty
  rw [VdevList.live_empty,if_neg (by decide)] at hhandle
  refine ⟨⟨_,?_,hq,hlost⟩,_,?_,hq,hlost⟩
  · simp only [refusedRun,run,init_poll,polled_get,requested_refused,Option.bind_some]
  · simp only [goneRun,run,init_poll,polled_get,requested_flush,queued_take,hhandle,taken_finish,
      Option.bind_some]

end MsgPool

end Umanet
