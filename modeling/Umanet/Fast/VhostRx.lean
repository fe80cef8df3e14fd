import Umanet.Framework.Batch
import Umanet.Fast.Classify
import Mathlib.Data.Fintype.Card

namespace Umanet

open Framework

/-- `SLOW_MAC_LEARNING`, `SLOW_ARP_REQ` -/
inductive SlowReason
  | macLearning
  | arpReq
  deriving DecidableEq

/-- `SLOW_SRC_VHOST` with vid, `SLOW_SRC_ETH` with queue. -/
inductive SlowSrc
  | vhost (vid : Vid)
  | eth (queue : Nat)
  deriving DecidableEq

/-- `struct slow_msg` -/
structure SlowMsg (μ : Type) where
  reason : SlowReason
  src : SlowSrc
  mbuf : μ
  deriving DecidableEq

/-- A packet of a burst: its mbuf, the bytes, and the route table as it is when the
core classifies the packet. -/
structure Polled (μ : Type) where
  mbuf : μ
  data : Data
  route : Route

def bswap16 (x : BitVec 16) : BitVec 16 := x.extractLsb' 0 8++x.extractLsb' 8 8

def bswap32 (x : BitVec 32) : BitVec 32 :=
  x.extractLsb' 0 8++x.extractLsb' 8 8++x.extractLsb' 16 8++x.extractLsb' 24 8

def defaultRssKey : List Byte :=
  [0x6d,0x5a,0x56,0xda,0x25,0x5b,0x0e,0xc2,0x41,0x67,0x25,0x3d,0x43,0xa3,0x8f,0xb0,0xd0,0xca,0x2b,
    0xcb,0xae,0x7b,0x30,0xb4,0x77,0xcb,0x2d,0xa3,0x80,0x30,0xf2,0x0c,0x6a,0x42,0xb7,0x3b,0xbe,0xac,
    0x01,0xfa]

/-- rte_softrss_be, which is DPDK's: a hash of the tuple under a key. -/
abbrev Softrss := List (BitVec 32) → List Byte → BitVec 32

def flowPickTx (rss : Softrss) (ethTxQueues : Nat) (k : FlowKey) : Nat :=
  (rss [bswap32 k.srcIp,bswap32 k.dstIp,
    (bswap16 k.srcPort).setWidth 32 <<< 16 ||| (bswap16 k.dstPort).setWidth 32,
    bswap32 (k.proto.setWidth 32)] defaultRssKey).toNat%ethTxQueues

/-- Where vhost_rx_loop puts a packet. -/
inductive Exit
  | slow
  | drop
  | vm (v : Vid)
  | eth (queue : Nat)
  deriving DecidableEq

theorem Exit.vm_injective : Function.Injective Exit.vm := fun _ _ h => Exit.vm.inj h

theorem Exit.eth_injective : Function.Injective Exit.eth := fun _ _ h => Exit.eth.inj h

/-- The test `dst_vid < 0 || dst_vid >= MAX_VHOSTS`. -/
def vidOf (x : Int) : Option Vid :=
  if h : 0 ≤ x ∧ x < maxVhosts then some ⟨x.toNat,by omega⟩ else none

variable {μ : Type}

def exitOf (cfg : Config) (rss : Softrss) (p : Polled μ) : Exit :=
  if gatewayArp cfg.ip p.data then .slow
  else if dstIsLocalSubnet cfg.ip p.data then
    match vidOf (findVidByIp p.route (flowKey p.data).dstIp) with
    | some v => .vm v
    | none => .drop
  else .eth (flowPickTx rss cfg.ethTxQueues (flowKey p.data))

/-- The staging arrays `vm_pkts`, `eth_pkts`, `slow_msgs` with their counters, `dst_vids`
and `vid_seen_mask`. -/
structure Staging (μ : Type) where
  vmPkts : Vid → List μ
  ethPkts : Nat → List μ
  slowMsgs : List (SlowMsg μ)
  seen : Vid → Bool
  dstVids : List Vid

/-- Both ingress loops: the row of v gets a packet, and dst_vids the vid when it is new. -/
def stageVm (st : Staging μ) (v : Vid) (m : μ) : Option (Staging μ) :=
  (push maxPktBurst (st.vmPkts v) m).map fun l =>
    let vmPkts := Function.update st.vmPkts v l
    if st.seen v then {st with vmPkts:=vmPkts}
    else if st.dstVids.length≥maxVhosts then
      {st with vmPkts:=vmPkts,seen:=Function.update st.seen v true}
    else {st with
      vmPkts:=vmPkts
      seen:=Function.update st.seen v true
      dstVids:=st.dstVids++[v]}

def stageOne (cfg : Config) (rss : Softrss) (vid : Vid) (st : Staging μ) (p : Polled μ) :
    Option (Staging μ) :=
  match exitOf cfg rss p with
  | .slow => (push maxPktBurst st.slowMsgs ⟨.arpReq,.vhost vid,p.mbuf⟩).map fun l =>
      {st with slowMsgs:=l}
  | .drop => some st
  | .vm v => stageVm st v p.mbuf
  | .eth q => (push maxPktBurst (st.ethPkts q) p.mbuf).map fun l =>
      {st with ethPkts:=Function.update st.ethPkts q l}

/-- What is left in the arrays that live across bursts. -/
structure Carry (μ : Type) where
  vmPkts : Vid → List μ
  ethPkts : Nat → List μ

def Carry.zero : Carry μ := ⟨fun _ => [],fun _ => []⟩

/-- A burst: the polled device, its readiness, the packets, and how much room each
ring has when the burst is enqueued to it. -/
structure Burst (μ : Type) where
  vid : Vid
  learning : Bool
  pkts : List (Polled μ)
  accEth : Nat → Nat
  accVm : Vid → Nat
  accSlow : Nat

/-- The message that carries pkts[0] while the device is in DEVICE_MAC_LEARNING. -/
def Burst.learnMsgs (b : Burst μ) : List (SlowMsg μ) :=
  match b.learning,b.pkts with
  | true,p::_ => [⟨.macLearning,.vhost b.vid,p.mbuf⟩]
  | _,_ => []

def stage (cfg : Config) (rss : Softrss) (c : Carry μ) (b : Burst μ) : Option (Staging μ) :=
  b.pkts.foldlM (stageOne cfg rss b.vid) ⟨c.vmPkts,c.ethPkts,b.learnMsgs,fun _ => false,[]⟩

/-- State of the flush: the arrays, what the rings accepted, and the freed mbufs. -/
structure Out (μ : Type) where
  vmPkts : Vid → List μ
  ethPkts : Nat → List μ
  eth : Nat → List μ
  vm : Vid → List μ
  slow : List (SlowMsg μ)
  freed : List μ

/-- The loop over the egress queues: what the ring refuses is freed. -/
def flushEth (acc : Nat → Nat) : List Nat → Out μ → Out μ
  | [],o => o
  | j::js,o =>
    if (o.ethPkts j).isEmpty then flushEth acc js o
    else flushEth acc js {o with
      eth:=Function.update o.eth j ((o.ethPkts j).take (acc j))
      freed:=o.freed++(o.ethPkts j).drop (acc j)
      ethPkts:=Function.update o.ethPkts j []}

/-- The loop over `dst_vids`, which stops at an empty array: what the ring refuses is
only counted. -/
def flushVm (acc : Vid → Nat) : List Vid → Out μ → Out μ
  | [],o => o
  | v::vs,o =>
    if (o.vmPkts v).isEmpty then o
    else flushVm acc vs {o with
      vm:=Function.update o.vm v ((o.vmPkts v).take (acc v))
      vmPkts:=Function.update o.vmPkts v []}

/-- The body of vhost_rx_loop for one polled device; none is a write past an array. -/
def burst (cfg : Config) (rss : Softrss) (c : Carry μ) (b : Burst μ) : Option (Out μ) :=
  (stage cfg rss c b).map fun st =>
    let o : Out μ := ⟨st.vmPkts,st.ethPkts,fun _ => [],fun _ => [],[],[]⟩
    let o := flushVm b.accVm st.dstVids (flushEth b.accEth (List.range cfg.ethTxQueues) o)
    {o with slow:=st.slowMsgs.take b.accSlow}

/-- vhost_rx_loop: burst after burst with the arrays that live across them. -/
def vhostRxLoop (cfg : Config) (rss : Softrss) : Carry μ → List (Burst μ) → Option (Carry μ)
  | c,[] => some c
  | c,b::bs => (burst cfg rss c b).bind fun o => vhostRxLoop cfg rss ⟨o.vmPkts,o.ethPkts⟩ bs

/-- The rows hold `sent`, and dst_vids names those in use, each once. -/
structure VmStaged (sent : Vid → List μ) (st : Staging μ) : Prop where
  vm : ∀ v,st.vmPkts v=sent v
  nodup : st.dstVids.Nodup
  seen : ∀ v,st.seen v=true ↔ v∈st.dstVids
  mem : ∀ v,v∈st.dstVids ↔ sent v≠[]

/-- A new vid always fits into dst_vids: it has a slot for every vid. -/
theorem VmStaged.dstVids_lt {sent : Vid → List μ} {st : Staging μ} (h : VmStaged sent st) {v : Vid}
    (hv : v∉st.dstVids) : ¬st.dstVids.length≥maxVhosts := by
  have hc := List.Nodup.length_le_card (List.nodup_cons.mpr ⟨hv,h.nodup⟩)
  rw [List.length_cons,Fintype.card_fin] at hc
  omega

theorem stageVm_spec {sent : Vid → List μ} {st : Staging μ} {v : Vid} (h : VmStaged sent st)
    (hroom : (sent v).length < maxPktBurst) (m : μ) : ∃ st',stageVm st v m=some st' ∧
      VmStaged (Function.update sent v (sent v++[m])) st' ∧ st'.ethPkts=st.ethPkts ∧
      st'.slowMsgs=st.slowMsgs := by
  rw [← h.vm v] at hroom
  have hvm : ∀ u,Function.update st.vmPkts v (st.vmPkts v++[m]) u=
      Function.update sent v (sent v++[m]) u := by
    intro u
    by_cases hu : u=v
    · subst hu
      simp [h.vm u]
    · rw [Function.update_of_ne hu,Function.update_of_ne hu,h.vm u]
  have hmem : ∀ u,Function.update sent v (sent v++[m]) u≠[] ↔ u=v ∨ u∈st.dstVids := by
    intro u
    rw [h.mem u]
    by_cases hu : u=v
    · simp [hu]
    · simp [hu]
  simp only [stageVm,push_of_lt hroom,Option.map_some]
  by_cases hs : st.seen v=true
  · refine ⟨_,rfl,?_⟩
    rw [if_pos hs]
    refine ⟨⟨hvm,h.nodup,h.seen,fun u => ?_⟩,rfl,rfl⟩
    rw [hmem u]
    have hv := (h.seen v).mp hs
    constructor
    · exact Or.inr
    · rintro (rfl | hu)
      · exact hv
      · exact hu
  · have hv : v∉st.dstVids := fun hm => hs ((h.seen v).mpr hm)
    refine ⟨_,rfl,?_⟩
    rw [if_neg hs,if_neg (h.dstVids_lt hv)]
    refine ⟨⟨hvm,?_,fun u => ?_,fun u => ?_⟩,rfl,rfl⟩
    · rw [List.nodup_append]
      refine ⟨h.nodup,List.nodup_singleton v,?_⟩
      intro a ha b hb hab
      rw [List.mem_singleton] at hb
      exact hv (hb ▸ hab ▸ ha)
    · change Function.update st.seen v true u=true ↔ u∈st.dstVids++[v]
      by_cases hu : u=v
      · simp [hu]
      · rw [Function.update_of_ne hu,h.seen u]
        simp [hu]
    · rw [hmem u]
      simp [or_comm]

/-- The mbufs of a list of packets that take one exit, in order. -/
def sentTo (cfg : Config) (rss : Softrss) (e : Exit) (l : List (Polled μ)) : List μ :=
  bucket (fun p => decide (exitOf cfg rss p=e)) Polled.mbuf l

/-- The arrays after the packets `done`: each exit has its packets in order, and
dst_vids names the destinations in use, each once. -/
structure Staged (cfg : Config) (rss : Softrss) (vid : Vid) (head : List (SlowMsg μ))
    (done : List (Polled μ)) (st : Staging μ) : Prop where
  vm : ∀ v,st.vmPkts v=sentTo cfg rss (.vm v) done
  eth : ∀ q,st.ethPkts q=sentTo cfg rss (.eth q) done
  slow : st.slowMsgs=head++(sentTo cfg rss .slow done).map fun m => ⟨.arpReq,.vhost vid,m⟩
  nodup : st.dstVids.Nodup
  seen : ∀ v,st.seen v=true ↔ v∈st.dstVids
  mem : ∀ v,v∈st.dstVids ↔ sentTo cfg rss (.vm v) done≠[]

section
variable {cfg : Config} {rss : Softrss} {vid : Vid} {head : List (SlowMsg μ)}
  {done : List (Polled μ)} {st : Staging μ} {p : Polled μ}

theorem sentTo_snoc (e : Exit) : sentTo cfg rss e (done++[p])=
    if exitOf cfg rss p=e then sentTo cfg rss e done++[p.mbuf] else sentTo cfg rss e done := by
  rw [sentTo,bucket_snoc]
  by_cases h : exitOf cfg rss p=e
  · simp [h,sentTo]
  · simp [h,sentTo]

theorem sentTo_length_le (e : Exit) : (sentTo cfg rss e done).length ≤ done.length :=
  bucket_length_le _ _ _

/-- A packet to a VM: its array has room, and so has dst_vids when the vid is new. -/
theorem stageOne_vm {v : Vid} (h : Staged cfg rss vid head done st) (hn : done.length < maxPktBurst)
    (he : exitOf cfg rss p=.vm v) :
    ∃ st',stageOne cfg rss vid st p=some st' ∧ Staged cfg rss vid head (done++[p]) st' := by
  have hroom : (sentTo cfg rss (.vm v) done).length < maxPktBurst :=
    Nat.lt_of_le_of_lt (sentTo_length_le _) hn
  obtain ⟨st',hst,hvm,heth,hslow⟩ := stageVm_spec ⟨h.vm,h.nodup,h.seen,h.mem⟩ hroom p.mbuf
  have hsent : ∀ u,Function.update (fun u => sentTo cfg rss (.vm u) done) v
      (sentTo cfg rss (.vm v) done++[p.mbuf]) u=sentTo cfg rss (.vm u) (done++[p]) :=
    congrFun (bucket_update Exit.vm_injective Polled.mbuf done he)
  refine ⟨st',by simp only [stageOne,he]; exact hst,fun u => (hvm.vm u).trans (hsent u),
    fun q => ?_,?_,hvm.nodup,hvm.seen,fun u => ?_⟩
  · rw [heth,sentTo_snoc,he,if_neg (by simp),h.eth q]
  · rw [hslow,sentTo_snoc,he,if_neg (by simp)]
    exact h.slow
  · rw [hvm.mem u,hsent u]

theorem Staged.other (h : Staged cfg rss vid head done st) (hvm : ∀ v,exitOf cfg rss p≠.vm v)
    {st' : Staging μ} (hv : st'.vmPkts=st.vmPkts) (hd : st'.dstVids=st.dstVids)
    (hs : st'.seen=st.seen) (heth : ∀ q,st'.ethPkts q=sentTo cfg rss (.eth q) (done++[p]))
    (hslow : st'.slowMsgs=head++(sentTo cfg rss .slow (done++[p])).map
      fun m => ⟨.arpReq,.vhost vid,m⟩) : Staged cfg rss vid head (done++[p]) st' := by
  refine ⟨fun v => ?_,heth,hslow,by rw [hd]; exact h.nodup,by rw [hs,hd]; exact h.seen,
    fun v => ?_⟩
  · rw [hv,sentTo_snoc,if_neg (hvm v),h.vm v]
  · rw [hd,sentTo_snoc,if_neg (hvm v),h.mem v]

/-- The classification loop gets past a packet unless slow_msgs is full. -/
theorem stageOne_spec (h : Staged cfg rss vid head done st) (hn : done.length < maxPktBurst)
    (hslow : exitOf cfg rss p=.slow → st.slowMsgs.length < maxPktBurst) :
    ∃ st',stageOne cfg rss vid st p=some st' ∧ Staged cfg rss vid head (done++[p]) st' := by
  cases he : exitOf cfg rss p with
  | vm v => exact stageOne_vm h hn he
  | drop =>
    refine ⟨st,by simp [stageOne,he],h.other (by simp [he]) rfl rfl rfl (fun q => ?_) ?_⟩
    · rw [sentTo_snoc,he,if_neg (by simp),h.eth q]
    · rw [sentTo_snoc,he,if_neg (by simp),h.slow]
  | slow =>
    simp only [stageOne,he,push_of_lt (hslow he),Option.map_some]
    refine ⟨_,rfl,h.other (by simp [he]) rfl rfl rfl (fun q => ?_) ?_⟩
    · rw [sentTo_snoc,he,if_neg (by simp),h.eth q]
    · rw [sentTo_snoc,he,if_pos rfl,h.slow,List.map_append]
      simp
  | eth q =>
    have hroom : (st.ethPkts q).length < maxPktBurst := by
      rw [h.eth q]
      exact Nat.lt_of_le_of_lt (sentTo_length_le _) hn
    simp only [stageOne,he,push_of_lt hroom,Option.map_some]
    refine ⟨_,rfl,h.other (by simp [he]) rfl rfl rfl (fun q' => ?_) ?_⟩
    · change Function.update st.ethPkts q (st.ethPkts q++[p.mbuf]) q'=_
      rw [show st.ethPkts=fun q => sentTo cfg rss (.eth q) done from funext h.eth]
      exact congrFun (bucket_update Exit.eth_injective Polled.mbuf done he) q'
    · rw [sentTo_snoc,he,if_neg (by simp),h.slow]

theorem stageOne_full (h : exitOf cfg rss p=.slow) (hfull : maxPktBurst ≤ st.slowMsgs.length) :
    stageOne cfg rss vid st p=none := by
  simp [stageOne,h,push_of_le hfull]

/-- The whole loop: it ends with every packet staged unless the messages for the slow
path outgrow slow_msgs. -/
theorem foldlM_stageOne (rest : List (Polled μ)) (h : Staged cfg rss vid head done st)
    (hn : done.length+rest.length ≤ maxPktBurst) (hs : st.slowMsgs.length ≤ maxPktBurst) :
    if head.length+(sentTo cfg rss .slow (done++rest)).length ≤ maxPktBurst then
      ∃ st',rest.foldlM (stageOne cfg rss vid) st=some st' ∧
        Staged cfg rss vid head (done++rest) st'
    else rest.foldlM (stageOne cfg rss vid) st=none := by
  induction rest generalizing done st with
  | nil =>
    have hle : head.length+(sentTo cfg rss .slow (done++[])).length ≤ maxPktBurst := by
      have hl := congrArg List.length h.slow
      simp only [List.length_append,List.length_map] at hl
      rw [List.append_nil]
      omega
    rw [if_pos hle,List.append_nil]
    exact ⟨st,rfl,h⟩
  | cons p rest ih =>
    rw [List.length_cons] at hn
    have happ : done++p::rest=(done++[p])++rest := by simp
    by_cases hfull : exitOf cfg rss p=.slow ∧ maxPktBurst ≤ st.slowMsgs.length
    · have hl := congrArg List.length h.slow
      simp only [List.length_append,List.length_map] at hl
      have hgt : ¬head.length+(sentTo cfg rss .slow (done++p::rest)).length ≤ maxPktBurst := by
        rw [happ,sentTo,bucket_append,← sentTo,sentTo_snoc,if_pos hfull.1]
        simp only [List.length_append,List.length_singleton]
        omega
      rw [if_neg hgt,List.foldlM_cons,stageOne_full hfull.1 hfull.2]
      rfl
    · have hroom : exitOf cfg rss p=.slow → st.slowMsgs.length < maxPktBurst :=
        fun he => Nat.lt_of_not_le fun hle => hfull ⟨he,hle⟩
      obtain ⟨st',hst,h'⟩ := stageOne_spec h (by omega) hroom
      have hs' : st'.slowMsgs.length ≤ maxPktBurst := by
        have hl := congrArg List.length h.slow
        have hl' := congrArg List.length h'.slow
        rw [sentTo_snoc] at hl'
        simp only [List.length_append,List.length_map] at hl hl'
        by_cases he : exitOf cfg rss p=.slow
        · have hr := hroom he
          rw [if_pos he] at hl'
          simp only [List.length_append,List.length_singleton] at hl'
          omega
        · rw [if_neg he] at hl'
          omega
      have hi := ih h' (by simp only [List.length_append,List.length_singleton]; omega) hs'
      rw [happ,List.foldlM_cons,hst]
      exact hi

end

theorem staged_zero (cfg : Config) (rss : Softrss) (b : Burst μ) :
    Staged cfg rss b.vid b.learnMsgs [] ⟨Carry.zero.vmPkts,Carry.zero.ethPkts,b.learnMsgs,
      fun _ => false,[]⟩ :=
  ⟨fun _ => rfl,fun _ => rfl,by simp [sentTo,bucket],List.nodup_nil,by simp,
    by simp [sentTo,bucket]⟩

theorem Burst.learnMsgs_length_le (b : Burst μ) : b.learnMsgs.length ≤ 1 := by
  unfold learnMsgs
  split <;> simp

def Burst.msgs (cfg : Config) (rss : Softrss) (b : Burst μ) : List (SlowMsg μ) :=
  b.learnMsgs++(sentTo cfg rss .slow b.pkts).map fun m => ⟨.arpReq,.vhost b.vid,m⟩

theorem stage_spec (cfg : Config) (rss : Softrss) (b : Burst μ)
    (hn : b.pkts.length ≤ maxPktBurst) :
    if (b.msgs cfg rss).length ≤ maxPktBurst then
      ∃ st,stage cfg rss .zero b=some st ∧ Staged cfg rss b.vid b.learnMsgs b.pkts st
    else stage cfg rss .zero b=none := by
  have hl := b.learnMsgs_length_le
  have h := foldlM_stageOne b.pkts (staged_zero cfg rss b) (by simpa using hn)
    (by simp only [maxPktBurst]; omega)
  simpa [Burst.msgs,stage] using h

/-- Each egress queue: a prefix goes to the ring, the rest is freed. -/
theorem flushEth_spec (acc : Nat → Nat) (js : List Nat) (o : Out μ) (hn : js.Nodup)
    (he : ∀ j∈js,o.eth j=[]) :
    (∀ j,(flushEth acc js o).eth j=if j∈js then (o.ethPkts j).take (acc j) else o.eth j) ∧
    (∀ j,(flushEth acc js o).ethPkts j=if j∈js then [] else o.ethPkts j) ∧
    (∀ m,m∈(flushEth acc js o).freed ↔ m∈o.freed ∨ ∃ j∈js,m∈(o.ethPkts j).drop (acc j)) ∧
    (flushEth acc js o).vm=o.vm ∧ (flushEth acc js o).vmPkts=o.vmPkts := by
  induction js generalizing o with
  | nil => simp [flushEth]
  | cons i js ih =>
    obtain ⟨hi,hn'⟩ := List.nodup_cons.mp hn
    have hne : ∀ {j},j∈js → j≠i := fun hj e => hi (e ▸ hj)
    rw [flushEth]
    split
    · rename_i hempty
      have hnil : o.ethPkts i=[] := List.isEmpty_iff.mp hempty
      obtain ⟨h1,h2,h3,h4⟩ := ih o hn' (fun j hj => he j (List.mem_cons_of_mem _ hj))
      refine ⟨fun j => ?_,fun j => ?_,fun m => ?_,h4⟩
      · rw [h1 j]
        by_cases hj : j=i
        · simp [hj,hi,hnil,he i]
        · simp [hj]
      · rw [h2 j]
        by_cases hj : j=i
        · simp [hj,hi,hnil]
        · simp [hj]
      · rw [h3 m]
        simp [hnil]
    · let o' : Out μ := {o with
        eth:=Function.update o.eth i ((o.ethPkts i).take (acc i))
        freed:=o.freed++(o.ethPkts i).drop (acc i)
        ethPkts:=Function.update o.ethPkts i []}
      obtain ⟨h1,h2,h3,h4⟩ := ih o' hn' (fun j hj =>
        (Function.update_of_ne (hne hj) _ _).trans (he j (List.mem_cons_of_mem _ hj)))
      refine ⟨fun j => ?_,fun j => ?_,fun m => ?_,h4⟩
      · rw [h1 j]
        by_cases hj : j=i
        · subst hj
          simp [o',hi]
        · simp [o',hj]
      · rw [h2 j]
        by_cases hj : j=i
        · simp [o',hj]
        · simp [o',hj]
      · rw [h3 m]
        have hrest : (∃ j∈js,m∈(Function.update o.ethPkts i [] j).drop (acc j)) ↔
            ∃ j∈js,m∈(o.ethPkts j).drop (acc j) := by
          constructor <;> rintro ⟨j,hj,hm⟩ <;>
            exact ⟨j,hj,by simpa [Function.update_of_ne (hne hj)] using hm⟩
        simp only [o',hrest]
        simp [or_assoc]

/-- Each destination: a prefix goes to the ring. Destinations in use are never empty,
so the loop does not stop early. -/
theorem flushVm_spec (acc : Vid → Nat) (vs : List Vid) (o : Out μ) (hn : vs.Nodup)
    (he : ∀ v∈vs,o.vmPkts v≠[]) :
    (∀ v,(flushVm acc vs o).vm v=if v∈vs then (o.vmPkts v).take (acc v) else o.vm v) ∧
    (∀ v,(flushVm acc vs o).vmPkts v=if v∈vs then [] else o.vmPkts v) ∧
    (flushVm acc vs o).eth=o.eth ∧ (flushVm acc vs o).ethPkts=o.ethPkts ∧
    (flushVm acc vs o).freed=o.freed := by
  induction vs generalizing o with
  | nil => simp [flushVm]
  | cons i vs ih =>
    obtain ⟨hi,hn'⟩ := List.nodup_cons.mp hn
    have hne : ∀ {v},v∈vs → v≠i := fun hv e => hi (e ▸ hv)
    have hnil : ¬(o.vmPkts i).isEmpty=true := by
      rw [List.isEmpty_iff]
      exact he i List.mem_cons_self
    rw [flushVm,if_neg hnil]
    let o' : Out μ := {o with
      vm:=Function.update o.vm i ((o.vmPkts i).take (acc i))
      vmPkts:=Function.update o.vmPkts i []}
    obtain ⟨h1,h2,h3⟩ := ih o' hn' (fun v hv => by
      have hv' := he v (List.mem_cons_of_mem _ hv)
      simpa [o',Function.update_of_ne (hne hv)] using hv')
    refine ⟨fun v => ?_,fun v => ?_,h3⟩
    · rw [h1 v]
      by_cases hv : v=i
      · subst hv
        simp [o',hi]
      · simp [o',hv]
    · rw [h2 v]
      by_cases hv : v=i
      · simp [o',hv]
      · simp [o',hv]

theorem exitOf_eth_lt {cfg : Config} {rss : Softrss} {p : Polled μ} {q : Nat}
    (h : exitOf cfg rss p=.eth q) : q < cfg.ethTxQueues := by
  unfold exitOf at h
  split at h
  · simp at h
  · split at h
    · split at h <;> simp at h
    · rw [← Exit.eth.inj h]
      exact Nat.mod_lt _ cfg.queues_pos

theorem sentTo_eth_ge {cfg : Config} {rss : Softrss} {l : List (Polled μ)} {q : Nat}
    (h : cfg.ethTxQueues ≤ q) : sentTo cfg rss (.eth q) l=[] := by
  rw [sentTo,bucket,List.map_eq_nil_iff,List.filter_eq_nil_iff]
  intro p _ he
  have hlt := exitOf_eth_lt (of_decide_eq_true he)
  omega

/-- What a burst hands to each ring, what it frees, and that it leaves its arrays empty. -/
structure BurstOut (cfg : Config) (rss : Softrss) (b : Burst μ) (o : Out μ) : Prop where
  vm : ∀ v,o.vm v=(sentTo cfg rss (.vm v) b.pkts).take (b.accVm v)
  eth : ∀ q,o.eth q=(sentTo cfg rss (.eth q) b.pkts).take (b.accEth q)
  slow : o.slow=(b.msgs cfg rss).take b.accSlow
  freed : ∀ m,m∈o.freed ↔ ∃ q,m∈(sentTo cfg rss (.eth q) b.pkts).drop (b.accEth q)
  vmPkts : o.vmPkts=fun _ => []
  ethPkts : o.ethPkts=fun _ => []

theorem flush_spec {cfg : Config} {rss : Softrss} {b : Burst μ} {st : Staging μ}
    (h : Staged cfg rss b.vid b.learnMsgs b.pkts st) :
    let o : Out μ := ⟨st.vmPkts,st.ethPkts,fun _ => [],fun _ => [],[],[]⟩
    let o := flushVm b.accVm st.dstVids (flushEth b.accEth (List.range cfg.ethTxQueues) o)
    BurstOut cfg rss b {o with slow:=st.slowMsgs.take b.accSlow} := by
  intro o
  obtain ⟨e1,e2,e3,e4,e5⟩ := flushEth_spec b.accEth (List.range cfg.ethTxQueues) o
    List.nodup_range (fun _ _ => rfl)
  generalize flushEth b.accEth (List.range cfg.ethTxQueues) o=oe at e1 e2 e3 e4 e5
  have hne : ∀ v∈st.dstVids,oe.vmPkts v≠[] := by
    intro v hv
    rw [e5]
    change st.vmPkts v≠[]
    rw [h.vm v]
    exact (h.mem v).mp hv
  obtain ⟨v1,v2,v3,v4,v5⟩ := flushVm_spec b.accVm st.dstVids oe h.nodup hne
  -- an exit without packets contributes nothing, in range or not
  have hq : ∀ q,¬q∈List.range cfg.ethTxQueues → sentTo cfg rss (.eth q) b.pkts=[] := by
    intro q hn
    exact sentTo_eth_ge (by simpa using hn)
  have hv : ∀ v,v∉st.dstVids → sentTo cfg rss (.vm v) b.pkts=[] := by
    intro v hn
    by_contra hs
    exact hn ((h.mem v).mpr hs)
  refine ⟨fun v => ?_,fun q => ?_,?_,fun m => ?_,?_,?_⟩
  · change (flushVm b.accVm st.dstVids oe).vm v=_
    rw [v1 v,e5,e4]
    by_cases hm : v∈st.dstVids
    · rw [if_pos hm]
      exact congrArg (List.take (b.accVm v)) (h.vm v)
    · rw [if_neg hm,hv v hm,List.take_nil]
  · change (flushVm b.accVm st.dstVids oe).eth q=_
    rw [v3,e1 q]
    by_cases hm : q∈List.range cfg.ethTxQueues
    · rw [if_pos hm]
      exact congrArg (List.take (b.accEth q)) (h.eth q)
    · rw [if_neg hm,hq q hm,List.take_nil]
  · change st.slowMsgs.take b.accSlow=_
    rw [h.slow,Burst.msgs]
  · change m∈(flushVm b.accVm st.dstVids oe).freed ↔ _
    rw [v5,e3 m]
    constructor
    · rintro (hm | ⟨q,-,hm⟩)
      · simp [o] at hm
      · exact ⟨q,h.eth q ▸ hm⟩
    · rintro ⟨q,hm⟩
      by_cases hr : q∈List.range cfg.ethTxQueues
      · rw [← h.eth q] at hm
        exact Or.inr ⟨q,hr,hm⟩
      · rw [hq q hr] at hm
        simp at hm
  · funext v
    change (flushVm b.accVm st.dstVids oe).vmPkts v=[]
    rw [v2 v,e5]
    split
    · rfl
    · rename_i hm
      exact (h.vm v).trans (hv v hm)
  · funext q
    change (flushVm b.accVm st.dstVids oe).ethPkts q=[]
    rw [v4,e2 q]
    split
    · rfl
    · rename_i hm
      exact (h.eth q).trans (hq q hm)

theorem burst_spec (cfg : Config) (rss : Softrss) (b : Burst μ)
    (hn : b.pkts.length ≤ maxPktBurst) :
    if (b.msgs cfg rss).length ≤ maxPktBurst then
      ∃ o,burst cfg rss .zero b=some o ∧ BurstOut cfg rss b o
    else burst cfg rss .zero b=none := by
  have h := stage_spec cfg rss b hn
  split at h
  · rename_i hm
    obtain ⟨st,hst,hs⟩ := h
    rw [if_pos hm]
    exact ⟨_,by rw [burst,hst]; rfl,flush_spec hs⟩
  · rename_i hm
    rw [if_neg hm,burst,h]
    rfl

theorem burst_out {cfg : Config} {rss : Softrss} {b : Burst μ} {o : Out μ}
    (hn : b.pkts.length ≤ maxPktBurst) (ho : burst cfg rss .zero b=some o) :
    BurstOut cfg rss b o := by
  have hspec := burst_spec cfg rss b hn
  rw [ho] at hspec
  split at hspec
  · obtain ⟨o',ho',hout⟩ := hspec
    rw [Option.some.inj ho']
    exact hout
  · cases hspec

theorem BurstOut.carry {cfg : Config} {rss : Softrss} {b : Burst μ} {o : Out μ}
    (h : BurstOut cfg rss b o) : (⟨o.vmPkts,o.ethPkts⟩ : Carry μ)=.zero := by
  rw [h.vmPkts,h.ethPkts]
  rfl

theorem vhostRxLoop_zero {cfg : Config} {rss : Softrss} {bs : List (Burst μ)} {c : Carry μ}
    (hn : ∀ b∈bs,b.pkts.length ≤ maxPktBurst) (h : vhostRxLoop cfg rss .zero bs=some c) :
    c=.zero := by
  induction bs with
  | nil => exact (Option.some.inj h).symm
  | cons b bs ih =>
    rw [vhostRxLoop] at h
    obtain ⟨o,ho,hr⟩ := Option.bind_eq_some_iff.mp h
    have hout := burst_out (hn b List.mem_cons_self) ho
    rw [hout.carry] at hr
    exact ih (fun b' hb => hn b' (List.mem_cons_of_mem _ hb)) hr

end Umanet
