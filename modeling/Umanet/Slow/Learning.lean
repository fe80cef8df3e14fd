import Mathlib.Data.List.Count
import Umanet.Framework.Custody
import Umanet.Fast.Rewrite
import Umanet.Slow.Arp

namespace Umanet

open Framework

/-- An mbuf with the VM it was polled from and the frame the VM put into it. -/
structure Buf where
  mbuf : Nat
  vid : Vid
  frame : Data

/-- A polled packet; `mark` says whether the vhost_rx core marks it as congested. -/
structure RxPkt where
  mbuf : Nat
  frame : Data
  route : Route
  mark : Bool

/-- A poll of one device, with the room in the rings as in `Burst`. -/
structure RxPoll where
  vid : Vid
  learning : Bool
  pkts : List RxPkt
  accEth : Nat → Nat
  accVm : Vid → Nat
  accSlow : Nat

def RxPkt.polled (v : Vid) (p : RxPkt) : Polled Buf := ⟨⟨p.mbuf,v,p.frame⟩,p.frame,p.route⟩

def RxPoll.burst (x : RxPoll) : Burst Buf :=
  ⟨x.vid,x.learning,x.pkts.map (RxPkt.polled x.vid),x.accEth,x.accVm,x.accSlow⟩

def RxPoll.mbufs (x : RxPoll) : List Nat := x.pkts.map RxPkt.mbuf

/-- Where an mbuf is outside the slow path and the vhost_tx cores: free, with cores that
are not modelled, in a vhost_rx core's arrays for a ring or for freeing, in an egress
ring, with eth_tx, with the NIC, in a vhost_tx ring. -/
inductive Place (cfg : Config)
  | pool
  | others
  | rxEth (c : Fin cfg.vhostRxCores) (q : Nat)
  | rxVm (c : Fin cfg.vhostRxCores) (v : Vid)
  | rxFreed (c : Fin cfg.vhostRxCores)
  | ethRing (q : Nat)
  | ethTx (q : Nat)
  | nic (q : Nat)
  | vmRing (v : Vid)
  deriving DecidableEq

/-- What slowpath_loop is doing: link_vmdq between the two stores, process_arp_req before
the enqueue and before the free. -/
inductive LearnPc
  | idle
  | linkIp (vid : Vid) (buf : Buf) (dev : VhostDev)
  | arpEnqueue (msg : SlowMsg Buf)
  | arpFree (mbuf : Nat)

/-- The mbuf process_arp_req is about to enqueue or to free. -/
def LearnPc.arp : LearnPc → Option Nat
  | .idle => none
  | .linkIp _ _ _ => none
  | .arpEnqueue msg => some msg.mbuf.mbuf
  | .arpFree x => some x

/-- The device vdevs[vid] as link_vmdq leaves it, with what the message is about. -/
structure Link where
  vid : Vid
  buf : Buf
  dev : VhostDev

/-- What the code gets from DPDK, the NIC and the rest of its configuration. -/
structure Env where
  rss : Softrss
  cksum : Data → BitVec 16
  ethAddr : Mac
  otherNodeMac : Mac

/-- Shared buffers, their places, and the messages on the way to the slow path: `msgs`
are those a vhost_rx core has yet to enqueue, `batch` those slowpath_loop has dequeued, and
`vdevs` are the devices of the list it has loaded for them. -/
structure Learning (cfg : Config) where
  data : Nat → Data
  bufs : Place cfg → List Nat
  tx : Fin cfg.vhostTxCores → TxCore Nat
  carry : Fin cfg.vhostRxCores → Carry Buf
  msgs : Fin cfg.vhostRxCores → List (SlowMsg Buf)
  ring : List (SlowMsg Buf)
  vdevs : Vid → Option VhostDev
  batch : List (SlowMsg Buf)
  pc : LearnPc
  links : List Link

inductive LearnAct (cfg : Config)
  | poll (c : Fin cfg.vhostRxCores) (x : RxPoll)
  | rxEth (c : Fin cfg.vhostRxCores) (q : Nat)
  | rxVm (c : Fin cfg.vhostRxCores) (v : Vid)
  | rxFree (c : Fin cfg.vhostRxCores)
  | rxSlow (c : Fin cfg.vhostRxCores)
  | ethTx (q : Nat)
  | networkSend (q sent requeued : Nat)
  | nicDone (q n : Nat)
  | vhostTx (c : Fin cfg.vhostTxCores) (plan : List Vid) (a : TxAct)
  | alloc (x : Nat)
  | write (x : Nat) (d : Data)
  | produce (v : Vid) (x : Nat)
  | release (x : Nat)
  | slowDequeue (vdevs : Vid → Option VhostDev)
  | slowNext
  | slowStep

variable {cfg : Config}

/-- rte_vhost_dequeue_burst copies the frames; the core may mark some before it enqueues. -/
def writePkts (cksum : Data → BitVec 16) (data : Nat → Data) : List RxPkt → Nat → Data
  | [] => data
  | p::ps => writePkts cksum (Function.update data p.mbuf
      (if p.mark then ecnMarkPacket cksum p.frame else p.frame)) ps

/-- eth_tx_loop goes over the packets it has dequeued. -/
def writeHeaders (env : Env) (mac : Mac) (data : Nat → Data) : List Nat → Nat → Data
  | [] => data
  | x::xs => writeHeaders env mac (Function.update data x
      (ethTxHeader env.ethAddr mac env.otherNodeMac (data x))) xs

namespace Learning

variable (env : Env)

/-- The places after a poll: mbufs out of the pool, into the core's arrays. -/
def afterPoll (s : Learning cfg) (c : Fin cfg.vhostRxCores) (xs : List Nat) (o : Out Buf) :
    Place cfg → List Nat
  | .pool => (s.bufs .pool).diff xs
  | .rxEth d q => if d=c then (o.eth q).map Buf.mbuf else s.bufs (.rxEth d q)
  | .rxVm d v => if d=c then (o.vm v).map Buf.mbuf else s.bufs (.rxVm d v)
  | .rxFreed d => if d=c then o.freed.map Buf.mbuf else s.bufs (.rxFreed d)
  | p => s.bufs p

def polled (s : Learning cfg) (c : Fin cfg.vhostRxCores) (x : RxPoll) (o : Out Buf) :
    Learning cfg := {s with
  data:=writePkts env.cksum s.data x.pkts
  bufs:=s.afterPoll c x.mbufs o
  carry:=Function.update s.carry c ⟨o.vmPkts,o.ethPkts⟩
  msgs:=Function.update s.msgs c o.slow}

/-- The vhost_rx core is done with its previous burst. -/
def RxIdle (s : Learning cfg) (c : Fin cfg.vhostRxCores) : Prop :=
  s.msgs c=[] ∧ s.bufs (.rxFreed c)=[] ∧ (∀ v,s.bufs (.rxVm c v)=[]) ∧
    ∀ q < cfg.ethTxQueues,s.bufs (.rxEth c q)=[]

instance (s : Learning cfg) (c : Fin cfg.vhostRxCores) : Decidable (s.RxIdle c) :=
  inferInstanceAs (Decidable (_ ∧ _ ∧ _ ∧ _))

/-- The places after a step of a vhost_tx core. -/
def afterTx (s : Learning cfg) (o : TxOut Nat) : Place cfg → List Nat
  | .pool => s.bufs .pool++(List.finRange maxVhosts).flatMap o.freed
  | .vmRing v => o.rings v
  | p => s.bufs p

/-- The VM of a message. The messages here are those of vhost_rx_loop. -/
def msgVid (msg : SlowMsg Buf) : Option Vid :=
  match msg.src with
  | .vhost v => some v
  | .eth _ => none

/-- The body of slowpath_loop for one message. A request that is not for the gateway is dropped
without a free. -/
def handle (s : Learning cfg) (msg : SlowMsg Buf) (rest : List (SlowMsg Buf)) : Learning cfg :=
  let d := s.data msg.mbuf.mbuf
  match (msgVid msg).bind fun v => (s.vdevs v).map (v,·),msg.reason with
  | none,_ => {s with batch:=rest}
  | some (v,dev),.macLearning => {s with batch:=rest,pc:=.linkIp v msg.mbuf (dev.learnMac d)}
  | some _,.arpReq =>
    if arpOpcode d≠arpOpRequest then {s with batch:=rest}
    else if arpTip d≠cfg.ip then {s with batch:=rest}
    else {s with
      batch:=rest
      data:=Function.update s.data msg.mbuf.mbuf (arpReply cfg d)
      pc:=.arpEnqueue msg}

/-- The further steps of link_vmdq and process_arp_req. -/
def slowStep (s : Learning cfg) : Option (Learning cfg) :=
  match s.pc with
  | .idle => none
  | .linkIp v b dev =>
    let dev := dev.learnIp (s.data b.mbuf)
    some {s with
      pc:=.idle
      vdevs:=Function.update s.vdevs v (some dev)
      links:=s.links++[⟨v,b,dev⟩]}
  | .arpEnqueue msg =>
    match msg.src with
    | .vhost v =>
      if (s.bufs (.vmRing v)).length < ringCap then some {s with
        pc:=.arpFree msg.mbuf.mbuf
        bufs:=Function.update s.bufs (.vmRing v) (s.bufs (.vmRing v)++[msg.mbuf.mbuf])}
      else some {s with pc:=.arpFree msg.mbuf.mbuf}
    | .eth _ => some {s with pc:=.arpFree msg.mbuf.mbuf}
  | .arpFree x => some {s with
      pc:=.idle
      bufs:=Function.update s.bufs .pool (s.bufs .pool++[x])}

def step (s : Learning cfg) : LearnAct cfg → Option (Learning cfg)
  | .poll c x =>
    if x.pkts.length ≤ maxPktBurst ∧ (∀ y∈x.mbufs,x.mbufs.count y ≤ (s.bufs .pool).count y) ∧
        s.RxIdle c then
      (burst cfg env.rss (s.carry c) x.burst).map (s.polled env c x)
    else none
  | .rxEth c q => some {s with bufs:=move s.bufs (.rxEth c q) (.ethRing q) maxPktBurst}
  | .rxVm c v => some {s with bufs:=move s.bufs (.rxVm c v) (.vmRing v) maxPktBurst}
  | .rxFree c => some {s with bufs:=move s.bufs (.rxFreed c) .pool maxPktBurst}
  | .rxSlow c => some {s with msgs:=Function.update s.msgs c [],ring:=s.ring++s.msgs c}
  | .ethTx q =>
    if s.bufs (.ethTx q)=[] then some {s with
      data:=writeHeaders env cfg.mac s.data ((s.bufs (.ethRing q)).take maxPktBurst)
      bufs:=move s.bufs (.ethRing q) (.ethTx q) maxPktBurst}
    else none
  | .networkSend q sent requeued =>
    let bufs := move s.bufs (.ethTx q) (.nic q) sent
    let bufs := move bufs (.ethTx q) (.ethRing q) requeued
    some {s with bufs:=move bufs (.ethTx q) .pool maxPktBurst}
  | .nicDone q n => some {s with bufs:=move s.bufs (.nic q) .pool n}
  | .vhostTx c plan a =>
    ((s.tx c).step plan (fun v => s.bufs (.vmRing v)) a).map fun o => {s with
      tx:=Function.update s.tx c o.core
      bufs:=s.afterTx o}
  | .alloc x => (hand s.bufs .pool .others x).map fun bufs => {s with bufs:=bufs}
  | .write x d =>
    if x∈s.bufs .others then some {s with data:=Function.update s.data x d} else none
  | .produce v x => (hand s.bufs .others (.vmRing v) x).map fun bufs => {s with bufs:=bufs}
  | .release x => (hand s.bufs .others .pool x).map fun bufs => {s with bufs:=bufs}
  | .slowDequeue vdevs =>
    match s.pc,s.batch with
    | .idle,[] => some {s with
        vdevs:=vdevs
        batch:=s.ring.take maxPktBurst
        ring:=s.ring.drop maxPktBurst}
    | _,_ => none
  | .slowNext =>
    match s.pc,s.batch with
    | .idle,msg::rest => some (s.handle msg rest)
    | _,_ => none
  | .slowStep => s.slowStep

/-- Someone other than the holder of a learning message has the mbuf. -/
def Outside (s : Learning cfg) (x : Nat) : Prop :=
  (∃ p,x∈s.bufs p) ∨ (∃ c v,x∈(s.tx c).line v) ∨ s.pc.arp=some x

/-- The messages in the order in which they will be handled: those in the ring or
dequeued, and those of each vhost_rx core. -/
def queue (s : Learning cfg) : Option (Fin cfg.vhostRxCores) → List (SlowMsg Buf)
  | none => s.batch++s.ring
  | some c => s.msgs c

/-- The mbuf still tells link_vmdq what the frame did. -/
structure Intact (s : Learning cfg) (b : Buf) : Prop where
  alone : ¬s.Outside b.mbuf
  mac : srcMac (s.data b.mbuf)=srcMac b.frame
  ip : learnedIp (s.data b.mbuf)=learnedIp b.frame

/-- No message about the mbuf of a learning message is handled before it. -/
def Before (y x : SlowMsg Buf) : Prop := x.reason=.macLearning → y.mbuf.mbuf≠x.mbuf.mbuf

/-- link_vmdq has stored the addresses of the frame, in the device of the VM that sent it. -/
def FromFrame (l : Link) : Prop :=
  l.vid=l.buf.vid ∧ l.dev.mac=srcMac l.buf.frame ∧
    ∀ ip,learnedIp l.buf.frame=some ip → l.dev.ip=ip

structure Sound (s : Learning cfg) : Prop where
  carry : ∀ c,s.carry c=.zero
  single : ∀ c,(s.tx c).Single
  source : ∀ k,∀ m∈s.queue k,m.src=.vhost m.mbuf.vid
  safe : ∀ k,∀ m∈s.queue k,m.reason=.macLearning → s.Intact m.mbuf
  order : ∀ k,(s.queue k).Pairwise Before
  cross : ∀ k k',k≠k' → ∀ y∈s.queue k,∀ x∈s.queue k',Before y x
  linking : ∀ v b dev,s.pc=.linkIp v b dev → s.Intact b ∧ v=b.vid ∧ dev.mac=srcMac b.frame
  links : ∀ l∈s.links,FromFrame l

/-- A step that writes and hands on only mbufs that are outside already. -/
structure Confined (s t : Learning cfg) : Prop where
  out : ∀ x,t.Outside x → s.Outside x
  data : ∀ x,¬s.Outside x → t.data x=s.data x

variable {env : Env} {s t : Learning cfg}

theorem Intact.of_confined {b : Buf} (h : s.Intact b) (hc : Confined s t) : t.Intact b := by
  refine ⟨fun ho => h.alone (hc.out _ ho),?_,?_⟩
  · rw [hc.data _ h.alone]
    exact h.mac
  · rw [hc.data _ h.alone]
    exact h.ip

/-- Steps that leave the messages alone and do not start or finish link_vmdq. -/
theorem Sound.of_confined (h : Sound s) (hc : Confined s t) (hs : ∀ c,(t.tx c).Single)
    (hq : t.queue=s.queue := by rfl)
    (hpc : ∀ v b dev,t.pc=.linkIp v b dev → s.pc=.linkIp v b dev := by exact fun _ _ _ e => e)
    (hl : t.links=s.links := by rfl) (hcarry : t.carry=s.carry := by rfl) : Sound t := by
  refine ⟨?_,hs,?_,fun k m hm hr => ?_,?_,?_,fun v b dev hd => ?_,?_⟩
  · rw [hcarry]
    exact h.carry
  · rw [hq]
    exact h.source
  · rw [hq] at hm
    exact (h.safe k m hm hr).of_confined hc
  · rw [hq]
    exact h.order
  · rw [hq]
    exact h.cross
  · obtain ⟨hi,hm⟩ := h.linking v b dev (hpc v b dev hd)
    exact ⟨hi.of_confined hc,hm⟩
  · rw [hl]
    exact h.links

/-- The vhost_tx cores do not move, and places and process_arp_req get nothing new. -/
theorem Confined.of_bufs (hb : ∀ p x,x∈t.bufs p → s.Outside x)
    (hd : ∀ x,¬s.Outside x → t.data x=s.data x := by exact fun _ _ => rfl)
    (ha : ∀ x,t.pc.arp=some x → s.Outside x := by exact fun _ e => Or.inr (Or.inr e))
    (htx : t.tx=s.tx := by rfl) : Confined s t := by
  refine ⟨fun x hx => ?_,hd⟩
  rcases hx with ⟨p,hp⟩ | hx | hx
  · exact hb p x hp
  · rw [htx] at hx
    exact Or.inr (Or.inl hx)
  · exact ha x hx

theorem Sound.of_moves (h : Sound s) {bufs : Place cfg → List Nat}
    (hb : ∀ {p x},x∈bufs p → ∃ p',x∈s.bufs p') : Sound {s with bufs:=bufs} :=
  h.of_confined (.of_bufs fun _ _ hx => Or.inl (hb hx)) h.single

theorem writeHeaders_of_notMem (mac : Mac) {data : Nat → Data} {xs : List Nat} {x : Nat}
    (h : x∉xs) : writeHeaders env mac data xs x=data x := by
  induction xs generalizing data with
  | nil => rfl
  | cons y ys ih =>
    rw [writeHeaders,ih (List.not_mem_of_not_mem_cons h)]
    exact Function.update_of_ne (List.ne_of_not_mem_cons h) ..

theorem writePkts_of_notMem (cksum : Data → BitVec 16) {data : Nat → Data} {ps : List RxPkt}
    {x : Nat} (h : x∉ps.map RxPkt.mbuf) : writePkts cksum data ps x=data x := by
  induction ps generalizing data with
  | nil => rfl
  | cons p ps ih =>
    rw [writePkts,ih (List.not_mem_of_not_mem_cons h)]
    exact Function.update_of_ne (List.ne_of_not_mem_cons h) ..

theorem ethTx_sound (h : Sound s) {q : Nat} (ht : s.step env (.ethTx q)=some t) : Sound t := by
  simp only [step] at ht
  split at ht
  · have ht' := Option.some.inj ht
    subst ht'
    refine h.of_confined (.of_bufs (fun p x hx => Or.inl (mem_move hx)) fun x hx => ?_) h.single
    refine writeHeaders_of_notMem cfg.mac fun hm => hx (Or.inl ⟨.ethRing q,?_⟩)
    exact List.mem_of_mem_take hm
  · simp at ht

theorem vhostTx_sound (h : Sound s) {c : Fin cfg.vhostTxCores} {plan : List Vid} {a : TxAct}
    (ht : s.step env (.vhostTx c plan a)=some t) : Sound t := by
  simp only [step] at ht
  obtain ⟨o,ho,rfl⟩ := Option.map_eq_some_iff.mp ht
  have hstep := TxStep.of_step (h.single c) ho
  have hback : ∀ v x,x∈(s.tx c).line v++s.bufs (.vmRing v) → s.Outside x := by
    intro v x hx
    rcases List.mem_append.mp hx with hx | hx
    · exact Or.inr (Or.inl ⟨c,v,hx⟩)
    · exact Or.inl ⟨.vmRing v,hx⟩
  refine h.of_confined ⟨fun x hx => ?_,fun _ _ => rfl⟩ ?_
  · rcases hx with ⟨p,hp⟩ | ⟨d,v,hx⟩ | hx
    · cases p with
      | pool =>
        rcases List.mem_append.mp hp with hp | hp
        · exact Or.inl ⟨.pool,hp⟩
        · obtain ⟨v,-,hv⟩ := List.mem_flatMap.mp hp
          exact hback v x (hstep.freed_mem hv)
      | vmRing v => exact hback v x (hstep.stays_mem (List.mem_append_right _ hp))
      | others => exact Or.inl ⟨_,hp⟩
      | rxEth d q => exact Or.inl ⟨_,hp⟩
      | rxVm d v => exact Or.inl ⟨_,hp⟩
      | rxFreed d => exact Or.inl ⟨_,hp⟩
      | ethRing q => exact Or.inl ⟨_,hp⟩
      | ethTx q => exact Or.inl ⟨_,hp⟩
      | nic q => exact Or.inl ⟨_,hp⟩
    · change x∈(Function.update s.tx c o.core d).line v at hx
      by_cases hd : d=c
      · subst hd
        rw [Function.update_self] at hx
        exact hback v x (hstep.stays_mem (List.mem_append_left _ hx))
      · rw [Function.update_of_ne hd] at hx
        exact Or.inr (Or.inl ⟨d,v,hx⟩)
    · exact Or.inr (Or.inr hx)
  · exact (Function.forall_update_iff s.tx fun _ core => core.Single).mpr
      ⟨hstep.single,fun d _ => h.single d⟩

theorem write_sound (h : Sound s) {x : Nat} {d : Data} (ht : s.step env (.write x d)=some t) :
    Sound t := by
  simp only [step] at ht
  split at ht
  · rename_i hx
    have ht' := Option.some.inj ht
    subst ht'
    refine h.of_confined ⟨fun y hy => hy,fun y hy => ?_⟩ h.single
    exact Function.update_of_ne (fun e : y=x => hy (Or.inl ⟨.others,e ▸ hx⟩)) ..
  · simp at ht

theorem rxSlow_sound (h : Sound s) {c : Fin cfg.vhostRxCores}
    (ht : s.step env (.rxSlow c)=some t) : Sound t := by
  have ht' := Option.some.inj ht
  subst ht'
  let t : Learning cfg := {s with msgs:=Function.update s.msgs c [],ring:=s.ring++s.msgs c}
  have hnone : t.queue none=s.queue none++s.queue (some c) := (List.append_assoc ..).symm
  have hself : t.queue (some c)=[] := Function.update_self ..
  have hsome : ∀ d,d≠c → t.queue (some d)=s.queue (some d) := fun d hd =>
    Function.update_of_ne hd ..
  have hfrom : ∀ k m,m∈t.queue k → m∈s.queue k ∧ k≠some c ∨ m∈s.queue (some c) ∧ k=none := by
    intro k m hm
    cases k with
    | none =>
      rw [hnone] at hm
      rcases List.mem_append.mp hm with hm | hm
      · exact Or.inl ⟨hm,nofun⟩
      · exact Or.inr ⟨hm,rfl⟩
    | some d =>
      by_cases hd : d=c
      · subst hd
        rw [hself] at hm
        exact absurd hm List.not_mem_nil
      · rw [hsome d hd] at hm
        exact Or.inl ⟨hm,fun e => hd (Option.some.inj e)⟩
  have hc : Confined s t := ⟨fun _ hx => hx,fun _ _ => rfl⟩
  refine ⟨h.carry,h.single,fun k m hm => ?_,fun k m hm hr => ?_,fun k => ?_,
    fun k k' hk y hy x hx => ?_,
    fun v b dev e => ⟨(h.linking v b dev e).1.of_confined hc,(h.linking v b dev e).2⟩,h.links⟩
  · rcases hfrom k m hm with ⟨hm,-⟩ | ⟨hm,-⟩
    · exact h.source k m hm
    · exact h.source _ m hm
  · rcases hfrom k m hm with ⟨hm,-⟩ | ⟨hm,-⟩
    · exact (h.safe k m hm hr).of_confined hc
    · exact (h.safe _ m hm hr).of_confined hc
  · change (t.queue k).Pairwise Before
    cases k with
    | none =>
      rw [hnone,List.pairwise_append]
      exact ⟨h.order none,h.order (some c),h.cross none (some c) nofun⟩
    | some d =>
      by_cases hd : d=c
      · subst hd
        rw [hself]
        exact List.Pairwise.nil
      · rw [hsome d hd]
        exact h.order (some d)
  · rcases hfrom k y hy with ⟨hy',hkc⟩ | ⟨hy',hkn⟩
    · rcases hfrom k' x hx with ⟨hx',-⟩ | ⟨hx',-⟩
      · exact h.cross k k' hk y hy' x hx'
      · exact h.cross k (some c) hkc y hy' x hx'
    · rcases hfrom k' x hx with ⟨hx',hkc⟩ | ⟨-,hkn'⟩
      · exact h.cross (some c) k' (Ne.symm hkc) y hy' x hx'
      · exact absurd (hkn.trans hkn'.symm) hk

theorem Sound.of_pop (h : Sound s) {msg : SlowMsg Buf} (hnone : s.queue none=msg::t.queue none)
    (hsome : ∀ c,t.queue (some c)=s.queue (some c))
    (hi : ∀ b : Buf,s.Intact b → msg.mbuf.mbuf≠b.mbuf → t.Intact b)
    (hlink : ∀ v b dev,t.pc=.linkIp v b dev → t.Intact b ∧ v=b.vid ∧ dev.mac=srcMac b.frame)
    (hl : t.links=s.links := by rfl) (hcarry : t.carry=s.carry := by rfl)
    (htx : t.tx=s.tx := by rfl) : Sound t := by
  have hsub : ∀ k m,m∈t.queue k → m∈s.queue k := by
    intro k m hm
    cases k with
    | none => exact hnone ▸ List.mem_cons_of_mem _ hm
    | some c => exact hsome c ▸ hm
  have hfirst : msg∈s.queue none := hnone ▸ List.mem_cons_self
  refine ⟨?_,?_,fun k m hm => h.source k m (hsub k m hm),fun k m hm hr => ?_,fun k => ?_,
    fun k k' hk y hy x hx => ?_,hlink,?_⟩
  · rw [hcarry]
    exact h.carry
  · rw [htx]
    exact h.single
  · refine hi m.mbuf (h.safe k m (hsub k m hm) hr) ?_
    cases k with
    | none =>
      have hord := h.order none
      rw [hnone] at hord
      exact (List.pairwise_cons.mp hord).1 m hm hr
    | some c => exact h.cross none (some c) nofun msg hfirst m (hsub _ m hm) hr
  · cases k with
    | none =>
      have hord := h.order none
      rw [hnone] at hord
      exact (List.pairwise_cons.mp hord).2
    | some c =>
      rw [hsome c]
      exact h.order (some c)
  · exact h.cross k k' hk y (hsub k y hy) x (hsub k' x hx)
  · rw [hl]
    exact h.links

theorem handle_sound (h : Sound s) {msg : SlowMsg Buf} {rest : List (SlowMsg Buf)}
    (hpc : s.pc=.idle) (hb : s.batch=msg::rest) : Sound (s.handle msg rest) := by
  have hnone : s.queue none=msg::(rest++s.ring) := by
    rw [queue,hb]
    rfl
  have hdrop : Sound {s with batch:=rest} := by
    refine h.of_pop hnone (fun _ => rfl) (fun b hi _ => ?_) (fun v b dev e => ?_)
    · exact ⟨hi.alone,hi.mac,hi.ip⟩
    · exact nomatch hpc.symm.trans e
  unfold handle
  dsimp only
  split
  · exact hdrop
  · rename_i v dev hv hreason
    have hfirst : msg∈s.queue none := hnone ▸ List.mem_cons_self
    have hi := h.safe none msg hfirst hreason
    have hvid : v=msg.mbuf.vid := by
      rw [msgVid,h.source none msg hfirst] at hv
      obtain ⟨dev',-,he⟩ := Option.map_eq_some_iff.mp hv
      exact (congrArg Prod.fst he).symm
    have hout : ∀ b : Buf,s.Intact b → Intact {s with
        batch:=rest
        pc:=.linkIp v msg.mbuf (dev.learnMac (s.data msg.mbuf.mbuf))} b := by
      intro b hb
      exact hb.of_confined (.of_bufs (fun p x hx => Or.inl ⟨p,hx⟩) (fun _ _ => rfl) nofun)
    refine h.of_pop hnone (fun _ => rfl) (fun b hb _ => hout b hb) (fun v' b' dev' e => ?_)
    obtain ⟨rfl,rfl,rfl⟩ := LearnPc.linkIp.inj e
    exact ⟨hout _ hi,hvid,hi.mac⟩
  · split
    · exact hdrop
    · split
      · exact hdrop
      · refine h.of_pop hnone (fun _ => rfl) (fun b hb hne => ?_) nofun
        have hdata : Function.update s.data msg.mbuf.mbuf (arpReply cfg (s.data msg.mbuf.mbuf))
            b.mbuf=s.data b.mbuf := Function.update_of_ne (Ne.symm hne) ..
        refine ⟨fun hx => ?_,?_,?_⟩
        · rcases hx with hx | hx | hx
          · exact hb.alone (Or.inl hx)
          · exact hb.alone (Or.inr (Or.inl hx))
          · exact hne (Option.some.inj hx)
        · exact (congrArg srcMac hdata).trans hb.mac
        · exact (congrArg learnedIp hdata).trans hb.ip

theorem mem_added {y : Nat} {r : Place cfg} (hy : s.Outside y) (p : Place cfg) (x : Nat)
    (hx : x∈Function.update s.bufs r (s.bufs r++[y]) p) : s.Outside x := by
  rcases mem_update hx with hx | hx
  · rcases List.mem_append.mp hx with hx | hx
    · exact Or.inl ⟨r,hx⟩
    · exact List.mem_singleton.mp hx ▸ hy
  · exact Or.inl ⟨p,hx⟩

theorem slowStep_sound (h : Sound s) (ht : s.slowStep=some t) : Sound t := by
  have hnone : ∀ x,none=some x → s.Outside x := by
    intro x hx
    cases hx
  unfold slowStep at ht
  split at ht
  · simp at ht
  · rename_i v b dev hpc
    have ht' := Option.some.inj ht
    subst ht'
    obtain ⟨hi,hvid,hmac⟩ := h.linking v b dev hpc
    have hc : Confined s {s with
        pc:=.idle
        vdevs:=Function.update s.vdevs v (some (dev.learnIp (s.data b.mbuf)))
        links:=s.links++[⟨v,b,dev.learnIp (s.data b.mbuf)⟩]} :=
      .of_bufs (fun p x hx => Or.inl ⟨p,hx⟩) (fun _ _ => rfl) hnone
    refine ⟨h.carry,h.single,h.source,fun k m hm hr => (h.safe k m hm hr).of_confined hc,h.order,
      h.cross,?_,fun l hl => ?_⟩
    · intro v' b' dev' e
      cases e
    rcases List.mem_append.mp hl with hl | hl
    · exact h.links l hl
    · have heq := List.mem_singleton.mp hl
      subst heq
      refine ⟨hvid,(VhostDev.learnIp_mac ..).trans hmac,fun ip hip => ?_⟩
      rw [VhostDev.learnIp_ip,VhostDev.ipAfter,hi.ip,hip]
      rfl
  · rename_i msg hpc
    have harp : s.Outside msg.mbuf.mbuf := Or.inr (Or.inr (by rw [hpc]; rfl))
    have hpc' : ∀ x,some msg.mbuf.mbuf=some x → s.Outside x :=
      fun x e => Option.some.inj e ▸ harp
    have hlink : ∀ v b dev,LearnPc.arpFree msg.mbuf.mbuf=.linkIp v b dev →
        s.pc=.linkIp v b dev := by
      intro v b dev e
      cases e
    have hfree : Sound {s with pc:=.arpFree msg.mbuf.mbuf} :=
      h.of_confined (.of_bufs (fun p x hx => Or.inl ⟨p,hx⟩) (fun _ _ => rfl) hpc') h.single rfl hlink
    split at ht
    · split at ht
      · have ht' := Option.some.inj ht
        subst ht'
        exact h.of_confined (.of_bufs (mem_added harp) (fun _ _ => rfl) hpc') h.single rfl hlink
      · have ht' := Option.some.inj ht
        subst ht'
        exact hfree
    · have ht' := Option.some.inj ht
      subst ht'
      exact hfree
  · rename_i x hpc
    have ht' := Option.some.inj ht
    subst ht'
    have harp : s.Outside x := Or.inr (Or.inr (by rw [hpc]; rfl))
    refine h.of_confined (.of_bufs (mem_added harp) (fun _ _ => rfl) hnone) h.single rfl ?_
    intro v b dev e
    cases e

/-- The mbuf is in the pool once, and neither a place, a core nor a message has it. -/
structure SoleOwner (s : Learning cfg) (x : Nat) : Prop where
  pool : (s.bufs .pool).count x=1
  bufs : ∀ p,p≠.pool → x∉s.bufs p
  tx : ∀ c v,x∉(s.tx c).line v
  arp : s.pc.arp≠some x
  msgs : ∀ k,∀ m∈s.queue k,m.mbuf.mbuf≠x

/-- The packet takes no exit on which another core gets it: it is for the slow path, for
an address of no VM, or for a VM whose ring is full. -/
def Stays (env : Env) (cfg : Config) (x : RxPoll) (p : RxPkt) : Prop :=
  match exitOf cfg env.rss (p.polled x.vid) with
  | .slow => True
  | .drop => True
  | .vm v => x.accVm v=0
  | .eth _ => False

/-- The first packet of a burst polled in DEVICE_MAC_LEARNING is in an mbuf that was
freed once, and stays. -/
def FirstStays (env : Env) (s : Learning cfg) : LearnAct cfg → Prop
  | .poll _ x => x.learning=true → ∀ p ps,x.pkts=p::ps → s.SoleOwner p.mbuf ∧ Stays env cfg x p
  | _ => True

/-- The packets of an exit are packets of the burst that take it. -/
theorem exists_of_mem_sentTo {rss : Softrss} {e : Exit} {x : RxPoll} {b : Buf}
    (h : b∈sentTo cfg rss e x.burst.pkts) :
    ∃ p∈x.pkts,exitOf cfg rss (p.polled x.vid)=e ∧ b=⟨p.mbuf,x.vid,p.frame⟩ := by
  obtain ⟨pk,hpk,rfl⟩ := List.mem_map.mp h
  obtain ⟨hmem,hexit⟩ := List.mem_filter.mp hpk
  obtain ⟨p,hp,rfl⟩ := List.mem_map.mp hmem
  exact ⟨p,hp,of_decide_eq_true hexit,rfl⟩

/-- A message of the burst is about its VM and one of its mbufs, and the learning one about the
first. -/
theorem mem_msgs {rss : Softrss} {x : RxPoll} {m : SlowMsg Buf} (h : m∈x.burst.msgs cfg rss) :
    m.mbuf.mbuf∈x.mbufs ∧ m.src=.vhost m.mbuf.vid ∧ (m.reason=.macLearning → x.learning=true ∧
      ∃ p ps,x.pkts=p::ps ∧ m.mbuf=⟨p.mbuf,x.vid,p.frame⟩) := by
  rcases List.mem_append.mp h with h | h
  · cases hl : x.learning with
    | false =>
      simp [Burst.learnMsgs,RxPoll.burst,hl] at h
    | true =>
      cases hp : x.pkts with
      | nil => simp [Burst.learnMsgs,RxPoll.burst,hp] at h
      | cons p ps =>
        simp only [Burst.learnMsgs,RxPoll.burst,hl,hp,List.map_cons,List.mem_singleton] at h
        subst h
        refine ⟨?_,rfl,fun _ => ⟨rfl,p,ps,rfl,rfl⟩⟩
        rw [RxPoll.mbufs,hp]
        exact List.mem_cons_self
  · obtain ⟨b,hb,rfl⟩ := List.mem_map.mp h
    obtain ⟨p,hp,-,rfl⟩ := exists_of_mem_sentTo hb
    exact ⟨List.mem_map.mpr ⟨p,hp,rfl⟩,rfl,nofun⟩

theorem msgs_before {rss : Softrss} (x : RxPoll) :
    (x.burst.msgs cfg rss).Pairwise Before := by
  have harp : ∀ y,∀ m∈(sentTo cfg rss .slow x.burst.pkts).map
      (fun b => (⟨.arpReq,.vhost x.burst.vid,b⟩ : SlowMsg Buf)),Before y m := by
    intro y m hm hr
    obtain ⟨b,-,rfl⟩ := List.mem_map.mp hm
    exact nomatch hr
  refine List.pairwise_append.mpr ⟨?_,?_,fun y _ m hm => harp y m hm⟩
  · unfold Burst.learnMsgs
    split
    · exact List.pairwise_singleton ..
    · exact List.Pairwise.nil
  · exact List.pairwise_of_forall_mem_list fun y _ m hm => harp y m hm

section
variable {c : Fin cfg.vhostRxCores} {x : RxPoll} {o : Out Buf}

theorem mem_afterPoll (hout : BurstOut cfg env.rss x.burst o) {y : Nat} {p : Place cfg}
    (hy : y∈s.afterPoll c x.mbufs o p) :
    y∈s.bufs p ∧ (p=.pool → y∈(s.bufs .pool).diff x.mbufs) ∨
      ∃ e,∃ b∈sentTo cfg env.rss e x.burst.pkts,b.mbuf=y ∧
        ((∃ v,e=.vm v ∧ x.accVm v≠0) ∨ ∃ q,e=.eth q) := by
  cases p with
  | pool => exact Or.inl ⟨List.diff_subset _ _ hy,fun _ => hy⟩
  | rxEth d q =>
    change y∈(if d=c then (o.eth q).map Buf.mbuf else s.bufs (.rxEth d q)) at hy
    split at hy
    · obtain ⟨b,hb,rfl⟩ := List.mem_map.mp hy
      rw [hout.eth q] at hb
      exact Or.inr ⟨.eth q,b,List.mem_of_mem_take hb,rfl,Or.inr ⟨q,rfl⟩⟩
    · exact Or.inl ⟨hy,nofun⟩
  | rxVm d v =>
    change y∈(if d=c then (o.vm v).map Buf.mbuf else s.bufs (.rxVm d v)) at hy
    split at hy
    · obtain ⟨b,hb,rfl⟩ := List.mem_map.mp hy
      rw [hout.vm v] at hb
      refine Or.inr ⟨.vm v,b,List.mem_of_mem_take hb,rfl,Or.inl ⟨v,rfl,fun h0 => ?_⟩⟩
      have hz : x.burst.accVm v=0 := h0
      rw [hz,List.take_zero] at hb
      exact List.not_mem_nil hb
    · exact Or.inl ⟨hy,nofun⟩
  | rxFreed d =>
    change y∈(if d=c then o.freed.map Buf.mbuf else s.bufs (.rxFreed d)) at hy
    split at hy
    · obtain ⟨b,hb,rfl⟩ := List.mem_map.mp hy
      obtain ⟨q,hq⟩ := (hout.freed b).mp hb
      exact Or.inr ⟨.eth q,b,List.mem_of_mem_drop hq,rfl,Or.inr ⟨q,rfl⟩⟩
    · exact Or.inl ⟨hy,nofun⟩
  | others => exact Or.inl ⟨hy,nofun⟩
  | ethRing q => exact Or.inl ⟨hy,nofun⟩
  | ethTx q => exact Or.inl ⟨hy,nofun⟩
  | nic q => exact Or.inl ⟨hy,nofun⟩
  | vmRing v => exact Or.inl ⟨hy,nofun⟩

theorem polled_confined (hout : BurstOut cfg env.rss x.burst o)
    (hpool : ∀ y∈x.mbufs,y∈s.bufs .pool) : Confined s (s.polled env c x o) := by
  refine .of_bufs (fun p y hy => ?_) (fun y hy => ?_)
  · rcases mem_afterPoll hout hy with hy | ⟨e,b,hb,rfl,-⟩
    · exact Or.inl ⟨p,hy.1⟩
    · obtain ⟨pk,hpk,-,rfl⟩ := exists_of_mem_sentTo hb
      exact Or.inl ⟨.pool,hpool _ (List.mem_map.mpr ⟨pk,hpk,rfl⟩)⟩
  · exact writePkts_of_notMem env.cksum fun hm => hy (Or.inl ⟨.pool,hpool y hm⟩)

/-- A first packet that stays has an mbuf no one else knows, with its frame in it. -/
theorem first_intact (hout : BurstOut cfg env.rss x.burst o)
    (hcount : ∀ y∈x.mbufs,x.mbufs.count y ≤ (s.bufs .pool).count y) {p : RxPkt} {ps : List RxPkt}
    (hp : x.pkts=p::ps) (hsole : s.SoleOwner p.mbuf) (hstay : Stays env cfg x p) :
    (s.polled env c x o).Intact ⟨p.mbuf,x.vid,p.frame⟩ := by
  have hmbufs : x.mbufs=p.mbuf::ps.map RxPkt.mbuf := by rw [RxPoll.mbufs,hp]; rfl
  have hle := hcount p.mbuf (hmbufs ▸ List.mem_cons_self)
  rw [hsole.pool,hmbufs,List.count_cons_self] at hle
  have hrest : p.mbuf∉ps.map RxPkt.mbuf := List.count_eq_zero.mp (by omega)
  have hdata : (s.polled env c x o).data p.mbuf=
      if p.mark then ecnMarkPacket env.cksum p.frame else p.frame := by
    change writePkts env.cksum s.data x.pkts p.mbuf=_
    rw [hp,writePkts,writePkts_of_notMem env.cksum hrest,Function.update_self]
  have hkeep := ecnMarkPacket_keeps env.cksum p.frame
  refine ⟨fun ho => ?_,?_,?_⟩
  · rcases ho with ⟨r,hr⟩ | ⟨d,v,hx⟩ | hx
    · rcases mem_afterPoll hout hr with ⟨hr,hdiff⟩ | ⟨e,b,hb,hbm,hexit⟩
      · by_cases hpl : r=.pool
        · have hz := List.count_pos_iff.mpr (hdiff hpl)
          rw [List.count_diff,hsole.pool,hmbufs,List.count_cons_self] at hz
          omega
        · exact hsole.bufs r hpl hr
      · obtain ⟨pk,hpk,he,rfl⟩ := exists_of_mem_sentTo hb
        rw [hp] at hpk
        rcases List.mem_cons.mp hpk with rfl | hpk
        · unfold Stays at hstay
          rw [he] at hstay
          rcases hexit with ⟨v,rfl,hv⟩ | ⟨q,rfl⟩
          · exact hv hstay
          · exact hstay
        · exact hrest (List.mem_map.mpr ⟨pk,hpk,hbm⟩)
    · exact hsole.tx d v hx
    · exact hsole.arp hx
  · rw [hdata]
    split
    · exact hkeep.1
    · rfl
  · rw [hdata]
    split
    · exact hkeep.2
    · rfl

/-- The messages of the burst: the learning one is intact, and no other message, of the
burst or pending elsewhere, gets in its way. -/
theorem polled_sound (h : Sound s) (hg : FirstStays env s (.poll c x))
    (hcount : ∀ y∈x.mbufs,x.mbufs.count y ≤ (s.bufs .pool).count y)
    (hout : BurstOut cfg env.rss x.burst o) : Sound (s.polled env c x o) := by
  have hpool : ∀ y∈x.mbufs,y∈s.bufs .pool := by
    intro y hy
    have hle := hcount y hy
    have hpos := List.count_pos_iff.mpr hy
    exact List.count_pos_iff.mp (by omega)
  have hconf : Confined s (s.polled env c x o) := polled_confined hout hpool
  have hself : (s.polled env c x o).queue (some c)=o.slow := Function.update_self ..
  have hother : ∀ k,k≠some c → (s.polled env c x o).queue k=s.queue k := by
    intro k hk
    cases k with
    | none => rfl
    | some d => exact Function.update_of_ne (fun e => hk (congrArg some e)) ..
  have hmsgs : ∀ m∈o.slow,m∈x.burst.msgs cfg env.rss := by
    intro m hm
    rw [hout.slow] at hm
    exact List.mem_of_mem_take hm
  refine ⟨?_,h.single,fun k m hm => ?_,fun k m hm hr => ?_,fun k => ?_,
    fun k k' hk y hy m hm hr => ?_,
    fun v b dev e => ⟨(h.linking v b dev e).1.of_confined hconf,(h.linking v b dev e).2⟩,h.links⟩
  · exact (Function.forall_update_iff s.carry fun _ z => z=.zero).mpr
      ⟨hout.carry,fun d _ => h.carry d⟩
  · by_cases hk : k=some c
    · subst hk
      rw [hself] at hm
      exact (mem_msgs (hmsgs m hm)).2.1
    · rw [hother k hk] at hm
      exact h.source k m hm
  · by_cases hk : k=some c
    · subst hk
      rw [hself] at hm
      obtain ⟨hl,p,ps,hp,hb⟩ := (mem_msgs (hmsgs m hm)).2.2 hr
      obtain ⟨hsole,hstay⟩ := hg hl p ps hp
      rw [hb]
      exact first_intact hout hcount hp hsole hstay
    · rw [hother k hk] at hm
      exact (h.safe k m hm hr).of_confined hconf
  · by_cases hk : k=some c
    · subst hk
      rw [hself,hout.slow]
      exact (msgs_before x).sublist (List.take_sublist _ _)
    · rw [hother k hk]
      exact h.order k
  · by_cases hkc : k'=some c
    · subst hkc
      rw [hself] at hm
      rw [hother k hk] at hy
      obtain ⟨hl,p,ps,hp,hb⟩ := (mem_msgs (hmsgs m hm)).2.2 hr
      rw [hb]
      exact (hg hl p ps hp).1.msgs k y hy
    · rw [hother k' hkc] at hm
      by_cases hkc' : k=some c
      · subst hkc'
        rw [hself] at hy
        have hin := hpool _ (mem_msgs (hmsgs y hy)).1
        intro e
        exact (h.safe k' m hm hr).alone (Or.inl ⟨.pool,e ▸ hin⟩)
      · rw [hother k hkc'] at hy
        exact h.cross k k' hk y hy m hm hr

end

theorem poll_sound (h : Sound s) {c : Fin cfg.vhostRxCores} {x : RxPoll}
    (hg : FirstStays env s (.poll c x)) (ht : s.step env (.poll c x)=some t) : Sound t := by
  simp only [step] at ht
  split at ht
  · rename_i hen
    obtain ⟨hlen,hcount,-⟩ := hen
    obtain ⟨o,ho,rfl⟩ := Option.map_eq_some_iff.mp ht
    rw [h.carry c] at ho
    exact polled_sound h hg hcount (burst_out (by simpa [RxPoll.burst] using hlen) ho)
  · simp at ht

theorem step_sound (h : Sound s) {a : LearnAct cfg} (hg : FirstStays env s a)
    (ht : s.step env a=some t) : Sound t := by
  cases a with
  | poll c x => exact poll_sound h hg ht
  | rxEth c q =>
    have ht' := Option.some.inj ht
    subst ht'
    exact h.of_moves mem_move
  | rxVm c v =>
    have ht' := Option.some.inj ht
    subst ht'
    exact h.of_moves mem_move
  | rxFree c =>
    have ht' := Option.some.inj ht
    subst ht'
    exact h.of_moves mem_move
  | rxSlow c => exact rxSlow_sound h ht
  | ethTx q => exact ethTx_sound h ht
  | networkSend q sent requeued =>
    have ht' := Option.some.inj ht
    subst ht'
    refine h.of_moves fun hx => ?_
    obtain ⟨p,hp⟩ := mem_move hx
    obtain ⟨p',hp'⟩ := mem_move hp
    exact mem_move hp'
  | nicDone q n =>
    have ht' := Option.some.inj ht
    subst ht'
    exact h.of_moves mem_move
  | vhostTx c plan a => exact vhostTx_sound h ht
  | alloc x =>
    obtain ⟨bufs,hb,rfl⟩ := Option.map_eq_some_iff.mp ht
    exact h.of_moves (mem_hand hb)
  | write x d => exact write_sound h ht
  | produce v x =>
    obtain ⟨bufs,hb,rfl⟩ := Option.map_eq_some_iff.mp ht
    exact h.of_moves (mem_hand hb)
  | release x =>
    obtain ⟨bufs,hb,rfl⟩ := Option.map_eq_some_iff.mp ht
    exact h.of_moves (mem_hand hb)
  | slowDequeue vdevs =>
    simp only [step] at ht
    split at ht
    · rename_i hpc hb
      have ht' := Option.some.inj ht
      subst ht'
      refine h.of_confined ⟨fun _ hx => hx,fun _ _ => rfl⟩ h.single ?_
      funext k
      cases k with
      | none =>
        change s.ring.take maxPktBurst++s.ring.drop maxPktBurst=s.batch++s.ring
        rw [List.take_append_drop,hb,List.nil_append]
      | some c => rfl
    · simp at ht
  | slowNext =>
    simp only [step] at ht
    split at ht
    · rename_i msg rest hpc hb
      have ht' := Option.some.inj ht
      subst ht'
      exact handle_sound h hpc hb
    · simp at ht
  | slowStep => exact slowStep_sound h ht

/-- The process after start-up: all mbufs are free, all rings empty. -/
def init (pool : List Nat) (data : Nat → Data) : Learning cfg where
  data:=data
  bufs:=fun p => if p=.pool then pool else []
  tx:=fun _ => .init
  carry:=fun _ => .zero
  msgs:=fun _ => []
  ring:=[]
  vdevs:=fun _ => none
  batch:=[]
  pc:=.idle
  links:=[]

theorem init_sound (pool : List Nat) (data : Nat → Data) :
    Sound (init pool data : Learning cfg) := by
  have hq : ∀ k,(init pool data : Learning cfg).queue k=[] := by
    intro k
    cases k with
    | none => rfl
    | some c => rfl
  refine ⟨fun _ => rfl,fun _ => TxCore.init_single,fun k m hm => ?_,fun k m hm => ?_,fun k => ?_,
    fun k _ _ y hy => ?_,nofun,nofun⟩
  · rw [hq k] at hm
    exact absurd hm List.not_mem_nil
  · rw [hq k] at hm
    exact absurd hm List.not_mem_nil
  · rw [hq k]
    exact List.Pairwise.nil
  · rw [hq k] at hy
    exact absurd hy List.not_mem_nil

/-- In every run in which the first packet of each learning burst stays with the slow
path, link_vmdq stores the addresses of the frame the VM sent, in the device of that VM. -/
theorem learned_from_frame (env : Env) (pool : List Nat) (data : Nat → Data) (s : Learning cfg)
    (h : Reaches (step env) (FirstStays env) (init pool data) s) : ∀ l∈s.links,FromFrame l :=
  (h.invariant (init_sound pool data) fun hi hg ht => step_sound hi hg ht).links

/-- The NIC's address is 09:09:09:09:09:09; hashes and checksums are zero. -/
def plainEnv : Env := ⟨fun _ _ => 0,fun _ => 0,fun _ => 9,fun _ => 0⟩

/-- One packet from device 0, polled into mbuf 1 in DEVICE_MAC_LEARNING. -/
def firstPoll (frame : Data) : RxPoll where
  vid:=0
  learning:=true
  pkts:=[⟨1,frame,initRouteTable,false⟩]
  accEth:=fun _ => 64
  accVm:=fun _ => 64
  accSlow:=64

def requestFrame : Data := fun o =>
  if o=6 then 7 else if o=28 then 192 else if o=29 then 168 else if o=30 then 100
  else if o=31 then 5 else ArpSys.gatewayRequest o

def oneDevice : Vid → Option VhostDev := fun v => if v=0 then some (.fresh 0) else none

/-- The VM starts with an ARP request; the slow path learns from it, then answers it. -/
def learnThenAnswer : List (LearnAct smallConfig) :=
  [.poll 0 (firstPoll requestFrame),.rxSlow 0,.slowDequeue oneDevice,.slowNext,.slowStep,
    .slowNext,.slowStep,.slowStep]

theorem learned_from_frame_request :
    ∃ s : Learning smallConfig,
      Reaches (step plainEnv) (FirstStays plainEnv) (init [1] fun _ _ => 0) s ∧
      s.links.map (fun l => (l.dev.mac 0,l.dev.ip))=[(7,0xC0A86405)] ∧
      ∀ l∈s.links,FromFrame l := by
  have hrun : (run (step plainEnv) (init [1] fun _ _ => 0) learnThenAnswer).map
      (fun s => s.links.map fun l => (l.dev.mac 0,l.dev.ip))=some [(7,0xC0A86405)] := by
    decide +kernel
  obtain ⟨s,hs,hl⟩ := Option.map_eq_some_iff.mp hrun
  have hexit : exitOf smallConfig plainEnv.rss
      (RxPkt.polled (firstPoll requestFrame).vid ⟨1,requestFrame,initRouteTable,false⟩)=.slow := by
    decide +kernel
  have hsole : (init [1] fun _ _ => 0 : Learning smallConfig).SoleOwner 1 := by
    refine ⟨rfl,fun p hp hm => ?_,fun _ _ => List.not_mem_nil,nofun,fun k m hm => ?_⟩
    · change 1∈(if p=.pool then [1] else []) at hm
      rw [if_neg hp] at hm
      exact List.not_mem_nil hm
    · cases k with
      | none => exact absurd hm List.not_mem_nil
      | some c => exact absurd hm List.not_mem_nil
  have hmeets : Meets (step plainEnv) (FirstStays plainEnv) (init [1] fun _ _ => 0)
      learnThenAnswer := by
    refine fun t ht => ⟨fun _ p ps hp => ?_,fun _ _ => ⟨trivial,fun _ _ => ⟨trivial,fun _ _ =>
      ⟨trivial,fun _ _ => ⟨trivial,fun _ _ => ⟨trivial,fun _ _ => ⟨trivial,fun _ _ =>
      ⟨trivial,trivial⟩⟩⟩⟩⟩⟩⟩⟩
    obtain ⟨rfl,-⟩ := List.cons.inj hp
    refine ⟨hsole,?_⟩
    unfold Stays
    rw [hexit]
    trivial
  have hreach := reaches_of_meets learnThenAnswer hs hmeets
  exact ⟨s,hreach,hl,learned_from_frame plainEnv [1] (fun _ _ => 0) s hreach⟩

def outboundFrame : Data := fun o => if o=6 then 7 else if o=12 then 8 else 0

/-- The packet goes out before the slow path gets to its message. -/
def sentFirst : List (LearnAct smallConfig) :=
  [.poll 0 (firstPoll outboundFrame),.rxEth 0 0,.ethTx 0,.rxSlow 0,.slowDequeue oneDevice,
    .slowNext,.slowStep]

/-- The device gets the NIC's MAC address. -/
theorem nic_address_learned :
    ∃ s : Learning smallConfig,Reaches (step plainEnv) anyStep (init [1] fun _ _ => 0) s ∧
      ∃ l∈s.links,l.dev.mac 0=9 ∧ srcMac l.buf.frame 0=7 ∧ ¬FromFrame l := by
  have hrun : (guardedRun (step plainEnv) anyStep (init [1] fun _ _ => 0) sentFirst).map
      (fun s => s.links.map fun l => (l.dev.mac 0,srcMac l.buf.frame 0))=some [(9,7)] := by
    decide +kernel
  obtain ⟨s,hs,hl⟩ := exists_reaches_of_guardedRun sentFirst _ hrun
  have hmem : ((9,7) : Byte × Byte)∈s.links.map fun l => (l.dev.mac 0,srcMac l.buf.frame 0) := by
    rw [hl]
    exact List.mem_singleton_self _
  obtain ⟨l,hls,he⟩ := List.mem_map.mp hmem
  obtain ⟨hmac,hsrc⟩ := Prod.ext_iff.mp he
  refine ⟨s,hs,l,hls,hmac,hsrc,fun hf => ?_⟩
  have h := congrFun hf.2.1 0
  rw [show l.dev.mac 0=9 from hmac,show srcMac l.buf.frame 0=7 from hsrc] at h
  exact absurd h (by decide)

end Learning

end Umanet
