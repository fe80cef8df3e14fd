import Umanet.Framework.Run
import Umanet.Fast.VhostRx
import Umanet.Fast.VhostTx

namespace Umanet

open Framework

/-- The stores of process_arp_req, in their order. -/
def arpReply (cfg : Config) (d : Data) : Data :=
  let d := putMac d 0 (srcMac d)
  let d := putMac d 6 cfg.mac
  let d := putBe16 d 20 arpOpReply
  let origIp := arpSip d
  let origMac := arpSha d
  let d := putMac d 22 cfg.mac
  let d := putBe32 d 28 cfg.ip
  let d := putMac d 32 origMac
  putBe32 d 38 origIp

/-- `r` answers the request `d` for the gateway address and is otherwise the same frame. -/
structure IsReply (cfg : Config) (d r : Data) : Prop where
  dst : dstMac r=srcMac d
  src : srcMac r=cfg.mac
  opcode : arpOpcode r=arpOpReply
  sha : arpSha r=cfg.mac
  sip : arpSip r=cfg.ip
  tha : arpTha r=arpSha d
  tip : arpTip r=arpSip d
  rest : ∀ i,12 ≤ i → i < 20 ∨ 42 ≤ i → r i=d i

theorem arpReply_isReply (cfg : Config) (d : Data) : IsReply cfg d (arpReply cfg d) := by
  have mm (d : Data) (o p : Nat) (m : Mac) (h : p+6 ≤ o ∨ o+6 ≤ p) :
      macAt (putMac d o m) p=macAt d p := macAt_store h
  have m16 (d : Data) (o p : Nat) (x : BitVec 16) (h : p+6 ≤ o ∨ o+2 ≤ p) :
      macAt (putBe16 d o x) p=macAt d p := macAt_store h
  have m32 (d : Data) (o p : Nat) (x : BitVec 32) (h : p+6 ≤ o ∨ o+4 ≤ p) :
      macAt (putBe32 d o x) p=macAt d p := macAt_store h
  have im (d : Data) (o p : Nat) (m : Mac) (h : p+4 ≤ o ∨ o+6 ≤ p) :
      be32 (putMac d o m) p=be32 d p := be32_store h
  have i16 (d : Data) (o p : Nat) (x : BitVec 16) (h : p+4 ≤ o ∨ o+2 ≤ p) :
      be32 (putBe16 d o x) p=be32 d p := be32_store h
  have i32 (d : Data) (o p : Nat) (x : BitVec 32) (h : p+4 ≤ o ∨ o+4 ≤ p) :
      be32 (putBe32 d o x) p=be32 d p := be32_store h
  have om (d : Data) (o p : Nat) (m : Mac) (h : p+2 ≤ o ∨ o+6 ≤ p) :
      be16 (putMac d o m) p=be16 d p := be16_store h
  have o32 (d : Data) (o p : Nat) (x : BitVec 32) (h : p+2 ≤ o ∨ o+4 ≤ p) :
      be16 (putBe32 d o x) p=be16 d p := be16_store h
  refine ⟨?_,?_,?_,?_,?_,?_,?_,fun i h12 hi => ?_⟩
  · simp [dstMac,srcMac,arpReply,macAt_putMac,mm,m16,m32]
  · simp [srcMac,arpReply,macAt_putMac,mm,m16,m32]
  · simp [arpOpcode,arpReply,be16_putBe16,om,o32]
  · simp [arpSha,arpReply,macAt_putMac,mm,m32]
  · simp [arpSip,arpReply,be32_putBe32,im,i32]
  · simp [arpTha,arpSha,arpReply,macAt_putMac,mm,m16,m32]
  · simp [arpTip,arpSip,arpReply,be32_putBe32,im,i16]
  · simp only [arpReply,putMac,putBe16,putBe32]
    repeat rw [store_out _ _ _ _ (by omega)]

/-- An mbuf in a vhost_tx ring; `reply` marks the one process_arp_req has enqueued. -/
structure Handle where
  mbuf : Nat
  reply : Bool

/-- `RING_SIZE-1` -/
def ringCap : Nat := 16383

/-- Where process_arp_req stands: before its tests, before the stores, before
rte_ring_enqueue_burst, before rte_pktmbuf_free, and back in slowpath_loop. -/
inductive ArpPc
  | check
  | build
  | enqueue
  | free
  | done
  deriving DecidableEq

/-- The buffers, the pool of free mbufs, the mbufs that cores other than the two at hand
own, the vhost_tx rings and the vhost_tx core of the VM; `frees` counts how often the
request's mbuf has been freed for this request, `frames` are the replies the VM got. -/
structure ArpSys where
  data : Nat → Data
  pool : List Nat
  others : List Nat
  rings : Vid → List Handle
  tx : TxCore Handle
  pc : ArpPc
  frees : Nat
  frames : List Data

/-- The next step of the slow path, one of the vhost_tx core, and what other cores do
with the mbufs they own. -/
inductive ArpAct
  | slow
  | tx (a : TxAct)
  | alloc (x : Nat)
  | write (x : Nat) (d : Data)
  | produce (v : Vid) (x : Nat)
  | release (x : Nat)

namespace ArpSys

variable (cfg : Config) (src : SlowSrc) (vid : Vid) (m : Nat) (plan : List Vid)

/-- process_arp_req on mbuf m. The free at its end does not look at what became of the
enqueue. -/
def processArpReq (s : ArpSys) : Option ArpSys :=
  match s.pc with
  | .check =>
    if arpOpcode (s.data m)≠arpOpRequest then some {s with pc:=.done}
    else if arpTip (s.data m)≠cfg.ip then some {s with pc:=.done}
    else some {s with pc:=.build}
  | .build => some {s with data:=Function.update s.data m (arpReply cfg (s.data m)),pc:=.enqueue}
  | .enqueue =>
    match src with
    | .vhost v =>
      if (s.rings v).length < ringCap then
        some {s with rings:=Function.update s.rings v (s.rings v++[⟨m,true⟩]),pc:=.free}
      else some {s with pc:=.free}
    | .eth _ => some {s with pc:=.free}
  | .free => some {s with pool:=m::s.pool,frees:=s.frees+1,pc:=.done}
  | .done => none

/-- The mbufs a step of the vhost_tx core frees. -/
def freedMbufs (o : TxOut Handle) : List Nat :=
  (List.finRange maxVhosts).flatMap fun v => (o.freed v).map Handle.mbuf

def step (s : ArpSys) : ArpAct → Option ArpSys
  | .slow => s.processArpReq cfg (.vhost vid) m
  | .tx a =>
    (s.tx.step plan s.rings a).map fun o => {s with
      tx:=o.core
      rings:=o.rings
      pool:=freedMbufs o++s.pool
      frees:=s.frees+(o.freed vid).countP Handle.reply
      frames:=s.frames++((o.delivered vid).filter Handle.reply).map fun h => s.data h.mbuf}
  | .alloc x =>
    if x∈s.pool then some {s with pool:=s.pool.erase x,others:=x::s.others} else none
  | .write x d => if x∈s.others then some {s with data:=Function.update s.data x d} else none
  | .produce v x =>
    if x∈s.others ∧ (s.rings v).length < ringCap then some {s with
      others:=s.others.erase x
      rings:=Function.update s.rings v (s.rings v++[⟨x,false⟩])}
    else none
  | .release x =>
    if x∈s.others then some {s with others:=s.others.erase x,pool:=x::s.pool} else none

def line (s : ArpSys) (v : Vid) : List Handle := s.tx.line v++s.rings v

/-- Owners of the request's mbuf: process_arp_req until it has freed it, the ring and the
vhost_tx core while they have the reply. -/
def owners (s : ArpSys) : Nat :=
  (if s.pc=.done then 0 else 1)+(s.line vid).countP Handle.reply

/-- One owner until the one free, the reply as required when it is offered to the ring,
and no other frame to the VM. -/
structure OneOwner (req : Data) (s : ArpSys) : Prop where
  once : s.owners vid+s.frees=1
  built : s.pc=.enqueue → IsReply cfg req (s.data m)
  frames : ∀ f∈s.frames,IsReply cfg req f

/-- The ring of the VM is full when process_arp_req enqueues the reply. -/
def RingFull (s : ArpSys) : ArpAct → Prop
  | .slow => s.pc=.enqueue → ringCap ≤ (s.rings vid).length
  | _ => True

/-- The request as slowpath_loop passes it on: a request for the gateway address, in an
mbuf no one else knows. -/
structure Request (req : Data) (s : ArpSys) : Prop where
  pc : s.pc=.check
  data : s.data m=req
  opcode : arpOpcode req=arpOpRequest
  tip : arpTip req=cfg.ip
  pool : m∉s.pool
  others : m∉s.others
  line : ∀ v,∀ h∈s.line v,h.mbuf≠m ∧ h.reply=false
  single : s.tx.Single
  frees : s.frees=0
  frames : s.frames=[]

/-- Until process_arp_req is over only it knows the mbuf, and it does free it. -/
structure Private (req : Data) (s : ArpSys) : Prop where
  single : s.tx.Single
  pool : s.pc≠.done → m∉s.pool
  others : s.pc≠.done → m∉s.others
  line : s.pc≠.done → ∀ v,∀ h∈s.line v,h.mbuf≠m
  data : s.pc=.check ∨ s.pc=.build → s.data m=req
  freed : s.pc=.done → 1 ≤ s.frees

variable {cfg : Config} {vid : Vid} {m : Nat} {plan : List Vid} {req : Data} {s t : ArpSys}

/-- With one owner there is no reply in the ring or with the vhost_tx core. -/
theorem Private.no_reply (h : Private m req s) (hp : OneOwner cfg vid m req s) :
    ∀ x∈s.line vid,x.reply=false := by
  have honce := hp.once
  have hzero : (s.line vid).countP Handle.reply=0 := by
    unfold owners at honce
    by_cases hpc : s.pc=.done
    · have hf := h.freed hpc
      rw [if_pos hpc] at honce
      omega
    · rw [if_neg hpc] at honce
      omega
  intro x hx
  simpa using List.countP_eq_zero.mp hzero x hx

theorem tx_step (hi : Private m req s) (hp : OneOwner cfg vid m req s) {a : TxAct}
    (ht : s.step cfg vid m plan (.tx a)=some t) : Private m req t ∧ OneOwner cfg vid m req t := by
  obtain ⟨o,ho,rfl⟩ := Option.map_eq_some_iff.mp ht
  have hstep := TxStep.of_step hi.single ho
  have hno := hi.no_reply hp
  have hfreed : (o.freed vid).countP Handle.reply=0 := by
    rw [List.countP_eq_zero]
    intro x hx
    simp [hno x (hstep.freed_mem hx)]
  have hdel : (o.delivered vid).filter Handle.reply=[] := by
    rw [List.filter_eq_nil_iff]
    intro x hx
    simp [hno x (hstep.delivered_mem hx)]
  have hcount : (s.line vid).countP Handle.reply=
      (o.core.line vid++o.rings vid).countP Handle.reply := by
    have hkept : o.freed vid++(o.core.line vid++o.rings vid)=s.line vid := hstep.kept vid
    rw [← hkept,List.countP_append,hfreed,Nat.zero_add]
  refine ⟨⟨hstep.single,fun hpc => ?_,hi.others,fun hpc v x hx => ?_,hi.data,fun hpc => ?_⟩,
    ?_,hp.built,?_⟩
  · change m∉freedMbufs o++s.pool
    rw [List.mem_append,not_or]
    refine ⟨fun hm => ?_,hi.pool hpc⟩
    obtain ⟨v,-,hv⟩ := List.mem_flatMap.mp hm
    obtain ⟨x,hx,he⟩ := List.mem_map.mp hv
    exact hi.line hpc v x (hstep.freed_mem hx) he
  · exact hi.line hpc v x (hstep.stays_mem hx)
  · have hf := hi.freed hpc
    change 1 ≤ s.frees+_
    omega
  · have honce := hp.once
    change (if s.pc=.done then 0 else 1)+(o.core.line vid++o.rings vid).countP Handle.reply+
      (s.frees+(o.freed vid).countP Handle.reply)=1
    rw [hfreed,← hcount]
    exact honce
  · change ∀ f∈s.frames++((o.delivered vid).filter Handle.reply).map _,_
    rw [hdel,List.map_nil,List.append_nil]
    exact hp.frames

theorem alloc_step (hi : Private m req s) (hp : OneOwner cfg vid m req s) {x : Nat}
    (ht : s.step cfg vid m plan (.alloc x)=some t) : Private m req t ∧ OneOwner cfg vid m req t := by
  simp only [step] at ht
  split at ht
  · rename_i hx
    have ht' := Option.some.inj ht
    subst ht'
    refine ⟨⟨hi.single,fun hpc hm => ?_,fun hpc hm => ?_,hi.line,hi.data,hi.freed⟩,
      hp.once,hp.built,hp.frames⟩
    · exact hi.pool hpc (List.mem_of_mem_erase hm)
    · rcases List.mem_cons.mp hm with rfl | hm
      · exact hi.pool hpc hx
      · exact hi.others hpc hm
  · simp at ht

theorem write_step (hi : Private m req s) (hp : OneOwner cfg vid m req s) {x : Nat} {d : Data}
    (ht : s.step cfg vid m plan (.write x d)=some t) : Private m req t ∧ OneOwner cfg vid m req t := by
  simp only [step] at ht
  split at ht
  · rename_i hx
    have ht' := Option.some.inj ht
    subst ht'
    have hdata : s.pc≠.done → Function.update s.data x d m=s.data m := by
      intro hpc
      exact Function.update_of_ne (fun e : m=x => hi.others hpc (e ▸ hx)) ..
    refine ⟨⟨hi.single,hi.pool,hi.others,hi.line,fun hpc => ?_,hi.freed⟩,
      hp.once,fun hpc => ?_,hp.frames⟩
    · refine (hdata ?_).trans (hi.data hpc)
      rcases hpc with e | e
      · exact fun e' => nomatch e.symm.trans e'
      · exact fun e' => nomatch e.symm.trans e'
    · change IsReply cfg req (Function.update s.data x d m)
      rw [hdata (fun e' => nomatch (show s.pc=_ from hpc).symm.trans e')]
      exact hp.built hpc
  · simp at ht

theorem produce_step (hi : Private m req s) (hp : OneOwner cfg vid m req s) {v : Vid} {x : Nat}
    (ht : s.step cfg vid m plan (.produce v x)=some t) : Private m req t ∧ OneOwner cfg vid m req t := by
  simp only [step] at ht
  split at ht
  · rename_i hx
    have ht' := Option.some.inj ht
    subst ht'
    have hcount : (s.tx.line vid++Function.update s.rings v (s.rings v++[⟨x,false⟩]) vid).countP
        Handle.reply=(s.line vid).countP Handle.reply := by
      by_cases hv : vid=v
      · subst hv
        rw [Function.update_self,line]
        simp [List.countP_append]
      · rw [Function.update_of_ne hv]
        rfl
    refine ⟨⟨hi.single,hi.pool,fun hpc hm => hi.others hpc (List.mem_of_mem_erase hm),
      fun hpc u h hh => ?_,hi.data,hi.freed⟩,?_,hp.built,hp.frames⟩
    · change h∈s.tx.line u++Function.update s.rings v _ u at hh
      by_cases hu : u=v
      · subst hu
        rw [Function.update_self,← List.append_assoc,List.mem_append,List.mem_singleton] at hh
        rcases hh with hh | rfl
        · exact hi.line hpc u h hh
        · exact fun e => hi.others hpc (e ▸ hx.1)
      · rw [Function.update_of_ne hu] at hh
        exact hi.line hpc u h hh
    · have honce := hp.once
      unfold owners at honce
      rw [← hcount] at honce
      exact honce
  · simp at ht

theorem release_step (hi : Private m req s) (hp : OneOwner cfg vid m req s) {x : Nat}
    (ht : s.step cfg vid m plan (.release x)=some t) : Private m req t ∧ OneOwner cfg vid m req t := by
  simp only [step] at ht
  split at ht
  · rename_i hx
    have ht' := Option.some.inj ht
    subst ht'
    refine ⟨⟨hi.single,fun hpc hm => ?_,fun hpc hm => hi.others hpc (List.mem_of_mem_erase hm),
      hi.line,hi.data,hi.freed⟩,hp.once,hp.built,hp.frames⟩
    rcases List.mem_cons.mp hm with rfl | hm
    · exact hi.others hpc hx
    · exact hi.pool hpc hm
  · simp at ht

theorem env_step (hi : Private m req s) (hp : OneOwner cfg vid m req s) {a : ArpAct}
    (ha : a≠.slow) (ht : s.step cfg vid m plan a=some t) :
    Private m req t ∧ OneOwner cfg vid m req t := by
  cases a with
  | slow => exact absurd rfl ha
  | tx b => exact tx_step hi hp ht
  | alloc x => exact alloc_step hi hp ht
  | write x d => exact write_step hi hp ht
  | produce v x => exact produce_step hi hp ht
  | release x => exact release_step hi hp ht

/-- The steps of process_arp_req: one owner is left unless the ring takes the reply. -/
theorem slow_step (hop : arpOpcode req=arpOpRequest) (htip : arpTip req=cfg.ip)
    (hi : Private m req s) (hp : OneOwner cfg vid m req s)
    (ht : s.step cfg vid m plan .slow=some t) :
    (OneOwner cfg vid m req t ↔ RingFull vid s .slow) ∧
      (RingFull vid s .slow → Private m req t) := by
  have hzero : (s.line vid).countP Handle.reply=0 := by
    rw [List.countP_eq_zero]
    intro x hx
    simp [hi.no_reply hp x hx]
  have honce : (if s.pc=.done then 0 else 1)+(s.line vid).countP Handle.reply+s.frees=1 := hp.once
  simp only [step,processArpReq] at ht
  have hne : s.pc≠.done := by
    intro hdone
    simp [hdone] at ht
  rw [if_neg hne] at honce
  cases hpc : s.pc with
  | check =>
    have hreq := hi.data (Or.inl hpc)
    simp only [hpc,hreq,hop,htip,ne_eq,not_true_eq_false,if_false] at ht
    have ht' := Option.some.inj ht
    subst ht'
    have hfull : RingFull vid s .slow := fun e => nomatch hpc.symm.trans e
    refine ⟨iff_of_true ⟨honce,nofun,hp.frames⟩ hfull,fun _ => ?_⟩
    exact ⟨hi.single,fun _ => hi.pool hne,fun _ => hi.others hne,fun _ => hi.line hne,
      fun _ => hreq,nofun⟩
  | build =>
    have hreq := hi.data (Or.inr hpc)
    simp only [hpc] at ht
    have ht' := Option.some.inj ht
    subst ht'
    have hfull : RingFull vid s .slow := fun e => nomatch hpc.symm.trans e
    have hbuilt : IsReply cfg req (Function.update s.data m (arpReply cfg (s.data m)) m) := by
      rw [Function.update_self,hreq]
      exact arpReply_isReply cfg req
    refine ⟨iff_of_true ⟨honce,fun _ => hbuilt,hp.frames⟩ hfull,fun _ => ?_⟩
    exact ⟨hi.single,fun _ => hi.pool hne,fun _ => hi.others hne,fun _ => hi.line hne,
      fun e => by simp at e,nofun⟩
  | enqueue =>
    simp only [hpc] at ht
    split at ht
    · rename_i hroom
      have ht' := Option.some.inj ht
      subst ht'
      have hnot : ¬RingFull vid s .slow := fun hf => by have h := hf hpc; omega
      refine ⟨iff_of_false (fun ho => ?_) hnot,fun hf => absurd hf hnot⟩
      have htwo : 1+(s.tx.line vid++Function.update s.rings vid (s.rings vid++[⟨m,true⟩]) vid).countP
          Handle.reply+s.frees=1 := ho.once
      rw [Function.update_self,← List.append_assoc,List.countP_append] at htwo
      simp only [List.countP_singleton,if_true] at htwo
      omega
    · rename_i hroom
      have ht' := Option.some.inj ht
      subst ht'
      refine ⟨iff_of_true ⟨honce,nofun,hp.frames⟩ (fun _ => Nat.le_of_not_lt hroom),fun _ => ?_⟩
      exact ⟨hi.single,fun _ => hi.pool hne,fun _ => hi.others hne,fun _ => hi.line hne,
        fun e => by simp at e,nofun⟩
  | free =>
    simp only [hpc] at ht
    have ht' := Option.some.inj ht
    subst ht'
    have hfull : RingFull vid s .slow := fun e => nomatch hpc.symm.trans e
    have hone : 0+(s.line vid).countP Handle.reply+(s.frees+1)=1 := by omega
    refine ⟨iff_of_true ⟨hone,nofun,hp.frames⟩ hfull,fun _ => ?_⟩
    exact ⟨hi.single,fun e => absurd rfl e,fun e => absurd rfl e,fun e => absurd rfl e,
      fun e => by simp at e,fun _ => Nat.le_add_left 1 s.frees⟩
  | done => exact absurd hpc hne

theorem step_private (hop : arpOpcode req=arpOpRequest) (htip : arpTip req=cfg.ip) {a : ArpAct}
    (hi : Private m req s) (hp : OneOwner cfg vid m req s) (hg : RingFull vid s a)
    (ht : s.step cfg vid m plan a=some t) : Private m req t := by
  by_cases ha : a=.slow
  · subst ha
    exact (slow_step hop htip hi hp ht).2 hg
  · exact (env_step hi hp ha ht).1

theorem step_oneOwner (hop : arpOpcode req=arpOpRequest) (htip : arpTip req=cfg.ip) {a : ArpAct}
    (hi : Private m req s) (hp : OneOwner cfg vid m req s)
    (ht : s.step cfg vid m plan a=some t) : OneOwner cfg vid m req t ↔ RingFull vid s a := by
  by_cases ha : a=.slow
  · subst ha
    exact (slow_step hop htip hi hp ht).1
  · have hfree : RingFull vid s a := by
      cases a with
      | slow => exact absurd rfl ha
      | _ => trivial
    exact iff_of_true (env_step hi hp ha ht).2 hfree

theorem Request.isPrivate (h : Request cfg m req s) : Private m req s :=
  ⟨h.single,fun _ => h.pool,fun _ => h.others,fun _ v x hx => (h.line v x hx).1,
    fun _ => h.data,fun e => nomatch h.pc.symm.trans e⟩

theorem Request.oneOwner (h : Request cfg m req s) (vid : Vid) : OneOwner cfg vid m req s := by
  have hzero : (s.line vid).countP Handle.reply=0 := by
    rw [List.countP_eq_zero]
    intro x hx
    simp [(h.line vid x hx).2]
  refine ⟨?_,(fun e => nomatch h.pc.symm.trans e),fun f hf => ?_⟩
  · rw [owners,hzero,h.pc,h.frees]
    decide
  · rw [h.frames] at hf
    exact absurd hf List.not_mem_nil

/-- In every interleaving, the mbuf has one owner at each step, is freed once and reaches
the VM only as the reply, exactly when the ring refuses the reply. -/
theorem reply_owned_iff_ring_full (cfg : Config) (vid : Vid) (m : Nat) (plan : List Vid)
    (req : Data) (s : ArpSys) (h : Request cfg m req s) (as : List ArpAct) :
    Visits (step cfg vid m plan) (OneOwner cfg vid m req) s as ↔
      Meets (step cfg vid m plan) (RingFull vid) s as :=
  visits_iff_meets (I:=Private m req) (fun hi hp hg ht => step_private h.opcode h.tip hi hp hg ht)
    (fun hi hp ht => step_oneOwner h.opcode h.tip hi hp ht) s as h.isPrivate (h.oneOwner vid)

theorem step_refused (hpc : s.pc=.enqueue) (h : ringCap ≤ (s.rings vid).length) :
    s.step cfg vid m plan .slow=some {s with pc:=.free} := by
  simp only [step,processArpReq,hpc]
  exact if_neg (Nat.not_lt.mpr h)

/-- A request for 192.168.100.1; its other bytes are zero. -/
def gatewayRequest : Data := fun o =>
  if o=12 then 8 else if o=13 then 6 else if o=21 then 1 else if o=38 then 192
  else if o=39 then 168 else if o=40 then 100 else if o=41 then 1 else 0

/-- The request in mbuf 1, with n other packets in every ring. -/
def beforeReply (n : Nat) : ArpSys :=
  ⟨fun _ => gatewayRequest,[],[],fun _ => List.replicate n ⟨7,false⟩,.init,.check,0,[]⟩

theorem beforeReply_request (n : Nat) : Request smallConfig 1 gatewayRequest (beforeReply n) := by
  refine ⟨rfl,rfl,by decide,by decide,List.not_mem_nil,List.not_mem_nil,fun v h hh => ?_,
    TxCore.init_single,rfl,rfl⟩
  have hrep : h∈List.replicate n (⟨7,false⟩ : Handle) := hh
  have heq := List.eq_of_mem_replicate hrep
  subst heq
  exact ⟨by decide,rfl⟩

/-- The whole of process_arp_req at a full ring. -/
theorem reply_owned_refused :
    Visits (step smallConfig 0 1 [0]) (OneOwner smallConfig 0 1 gatewayRequest)
      (beforeReply ringCap) [.slow,.slow,.slow,.slow] := by
  refine (reply_owned_iff_ring_full smallConfig 0 1 [0] gatewayRequest (beforeReply ringCap)
    (beforeReply_request ringCap) [.slow,.slow,.slow,.slow]).mpr ?_
  intro s₁ h₁
  have h₁' := Option.some.inj h₁
  subst h₁'
  refine ⟨nofun,fun s₂ h₂ => ?_⟩
  have h₂' := Option.some.inj h₂
  subst h₂'
  refine ⟨nofun,fun s₃ h₃ => ?_⟩
  have hlen : ringCap ≤ ((beforeReply ringCap).rings 0).length := by simp [beforeReply]
  have heq := Option.some.inj (h₃.symm.trans (step_refused (by rfl) (by exact hlen)))
  subst heq
  refine ⟨fun _ => hlen,fun s₄ h₄ => ?_⟩
  exact ⟨nofun,trivial⟩

/-- The mbuf is enqueued, freed, allocated and overwritten by another core, and then
handed to the VM and freed again. -/
def reusedReply : List ArpAct :=
  [.slow,.slow,.slow,.slow,.alloc 1,.write 1 (fun _ => 0),.tx .load,.tx (.visit 0 0 0),
    .tx (.send 0 1)]

theorem reply_freed_twice :
    ∃ s,run (step smallConfig 0 1 [0]) (beforeReply 0) reusedReply=some s ∧ s.frees=2 ∧
      ∃ f∈s.frames,¬IsReply smallConfig gatewayRequest f := by
  have h : (run (step smallConfig 0 1 [0]) (beforeReply 0) reusedReply).map
      (fun s => (s.frees,s.frames.map arpOpcode))=some (2,[0]) := by decide +kernel
  obtain ⟨s,hs,he⟩ := Option.map_eq_some_iff.mp h
  obtain ⟨hfrees,hops⟩ := Prod.ext_iff.mp he
  have hops' : s.frames.map arpOpcode=[0] := hops
  have hzero : (0 : BitVec 16)∈s.frames.map arpOpcode := by
    rw [hops']
    exact List.mem_singleton_self 0
  obtain ⟨f,hf,hop⟩ := List.mem_map.mp hzero
  refine ⟨s,hs,hfrees,f,hf,fun hr => ?_⟩
  have h2 := hr.opcode
  rw [hop] at h2
  exact absurd h2 (by decide)

end ArpSys

end Umanet
