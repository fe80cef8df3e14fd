import Umanet.Fast.VhostRx

namespace Umanet

open Framework

variable {μ : Type}

/-- Where eth_rx_loop puts a packet, which is never an egress queue. -/
def ethExitOf (base : Ip) (p : Polled μ) : Exit :=
  if gatewayArp base p.data then .slow
  else if ethDstIsLocalSubnet base p.data≠0 then
    match vidOf (findVidByIp p.route (ethDstIsLocalSubnet base p.data)) with
    | some v => .vm v
    | none => .drop
  else .drop

/-- A burst of an rx queue with the vdev_list loaded for it, and how much room each ring has
when the burst is enqueued to it. -/
structure EthBurst (μ : Type) where
  queue : Nat
  snap : Option VdevList
  pkts : List (Polled μ)
  accVm : Vid → Nat
  accSlow : Nat

/-- `vdev_list_ptr->vdevs[v]`; none is a NULL list or a NULL entry. -/
def EthBurst.device (b : EthBurst μ) (v : Vid) : Option DevPtr := b.snap.bind fun L => L.vdevs v

/-- One iteration of the classification loop of eth_rx_loop. The device is read for its MAC
address before the packet is staged, so without one there is no next state. -/
def ethStageOne (base : Ip) (b : EthBurst μ) (st : Staging μ) (p : Polled μ) :
    Option (Staging μ) :=
  match ethExitOf base p with
  | .slow => (push maxPktBurst st.slowMsgs ⟨.arpReq,.eth b.queue,p.mbuf⟩).map fun l =>
      {st with slowMsgs:=l}
  | .vm v => (b.device v).bind fun _ => stageVm st v p.mbuf
  | .drop | .eth _ => some st

def ethStage (base : Ip) (c : Carry μ) (b : EthBurst μ) : Option (Staging μ) :=
  b.pkts.foldlM (ethStageOne base b) ⟨c.vmPkts,c.ethPkts,[],fun _ => false,[]⟩

/-- The body of eth_rx_loop for one rx queue. -/
def ethBurst (base : Ip) (c : Carry μ) (b : EthBurst μ) : Option (Out μ) :=
  (ethStage base c b).map fun st =>
    let o := flushVm b.accVm st.dstVids ⟨st.vmPkts,st.ethPkts,fun _ => [],fun _ => [],[],[]⟩
    {o with slow:=st.slowMsgs.take b.accSlow}

/-- The mbufs of a list of packets that take one exit, in order. -/
def ethSentTo (base : Ip) (e : Exit) (l : List (Polled μ)) : List μ :=
  bucket (fun p => decide (ethExitOf base p=e)) Polled.mbuf l

def EthBurst.Found (base : Ip) (b : EthBurst μ) (p : Polled μ) : Prop :=
  ∀ v,ethExitOf base p=.vm v → (b.device v).isSome=true

/-- The arrays after the packets `done`. -/
structure EthStaged (base : Ip) (b : EthBurst μ) (done : List (Polled μ)) (st : Staging μ) :
    Prop where
  rows : VmStaged (fun v => ethSentTo base (.vm v) done) st
  eth : st.ethPkts=fun _ => []
  slow : st.slowMsgs=(ethSentTo base .slow done).map fun m => ⟨.arpReq,.eth b.queue,m⟩

section
variable {base : Ip} {b : EthBurst μ} {done : List (Polled μ)} {st : Staging μ} {p : Polled μ}

theorem ethSentTo_snoc (e : Exit) : ethSentTo base e (done++[p])=
    if ethExitOf base p=e then ethSentTo base e done++[p.mbuf] else ethSentTo base e done := by
  rw [ethSentTo,bucket_snoc]
  by_cases h : ethExitOf base p=e
  · simp [h,ethSentTo]
  · simp [h,ethSentTo]

theorem ethExitOf_ne_eth (q : Nat) : ethExitOf base p≠.eth q := by
  unfold ethExitOf
  split
  · simp
  · split
    · split <;> simp
    · simp

/-- The classification loop gets past a packet iff it finds the device it needs. -/
theorem ethStageOne_spec (h : EthStaged base b done st) (hn : done.length < maxPktBurst)
    (hf : b.Found base p) :
    ∃ st',ethStageOne base b st p=some st' ∧ EthStaged base b (done++[p]) st' := by
  have hle (e : Exit) : (ethSentTo base e done).length < maxPktBurst :=
    Nat.lt_of_le_of_lt (bucket_length_le _ _ _) hn
  cases he : ethExitOf base p with
  | slow =>
    have hroom : st.slowMsgs.length < maxPktBurst := by
      rw [h.slow,List.length_map]
      exact hle .slow
    simp only [ethStageOne,he,push_of_lt hroom,Option.map_some]
    have hsame : ∀ v,ethSentTo base (.vm v) (done++[p])=ethSentTo base (.vm v) done := fun v => by
      rw [ethSentTo_snoc,he,if_neg (by simp)]
    refine ⟨_,rfl,?_,h.eth,?_⟩
    · simp only [hsame]
      exact ⟨h.rows.vm,h.rows.nodup,h.rows.seen,h.rows.mem⟩
    · rw [ethSentTo_snoc,he,if_pos rfl,List.map_append,← h.slow]
      rfl
  | drop =>
    have hsame : ∀ e≠.drop,ethSentTo base e (done++[p])=ethSentTo base e done := fun e hne => by
      rw [ethSentTo_snoc,he,if_neg (Ne.symm hne)]
    refine ⟨st,by simp only [ethStageOne,he],?_,h.eth,?_⟩
    · simp only [hsame (.vm _) (by simp)]
      exact h.rows
    · rw [hsame .slow (by simp)]
      exact h.slow
  | eth q => exact absurd he (ethExitOf_ne_eth q)
  | vm v =>
    obtain ⟨d,hd⟩ := Option.isSome_iff_exists.mp (hf v he)
    obtain ⟨st',hst,hrows,heth,hslow⟩ := stageVm_spec h.rows (hle (.vm v)) p.mbuf
    have hsent : Function.update (fun u => ethSentTo base (.vm u) done) v
        (ethSentTo base (.vm v) done++[p.mbuf])=fun u => ethSentTo base (.vm u) (done++[p]) :=
      bucket_update Exit.vm_injective Polled.mbuf done he
    refine ⟨st',by simp only [ethStageOne,he,hd]; exact hst,hsent ▸ hrows,heth.trans h.eth,?_⟩
    rw [hslow,ethSentTo_snoc,he,if_neg (by simp),h.slow]

theorem ethStageOne_missing (hf : ¬b.Found base p) : ethStageOne base b st p=none := by
  unfold EthBurst.Found at hf
  push Not at hf
  obtain ⟨v,he,hd⟩ := hf
  have hnone : b.device v=none := by simpa using hd
  simp only [ethStageOne,he,hnone]
  rfl

theorem foldlM_ethStageOne (rest : List (Polled μ)) (h : EthStaged base b done st)
    (hn : done.length+rest.length ≤ maxPktBurst) :
    (∃ st',rest.foldlM (ethStageOne base b) st=some st' ∧ EthStaged base b (done++rest) st' ∧
      ∀ p∈rest,b.Found base p) ∨
    rest.foldlM (ethStageOne base b) st=none ∧ ∃ p∈rest,¬b.Found base p := by
  induction rest generalizing done st with
  | nil =>
    refine Or.inl ⟨st,rfl,?_,by simp⟩
    rw [List.append_nil]
    exact h
  | cons p rest ih =>
    rw [List.length_cons] at hn
    by_cases hf : b.Found base p
    · obtain ⟨st',hst,h'⟩ := ethStageOne_spec h (by omega) hf
      rw [List.foldlM_cons,hst]
      rcases ih h' (by simp only [List.length_append,List.length_singleton]; omega) with
        ⟨st'',hr,hs,hall⟩ | ⟨hr,q,hq,hnf⟩
      · refine Or.inl ⟨st'',hr,?_,?_⟩
        · rwa [List.append_assoc] at hs
        · intro q hq
          rcases List.mem_cons.mp hq with rfl | hq
          · exact hf
          · exact hall q hq
      · exact Or.inr ⟨hr,q,List.mem_cons_of_mem _ hq,hnf⟩
    · rw [List.foldlM_cons,ethStageOne_missing hf]
      exact Or.inr ⟨rfl,p,List.mem_cons_self,hf⟩

end

/-- What a burst hands to each ring, and that it leaves its arrays empty. -/
structure EthBurstOut (base : Ip) (b : EthBurst μ) (o : Out μ) : Prop where
  vm : ∀ v,o.vm v=(ethSentTo base (.vm v) b.pkts).take (b.accVm v)
  eth : o.eth=fun _ => []
  slow : o.slow=((ethSentTo base .slow b.pkts).map fun m => ⟨.arpReq,.eth b.queue,m⟩).take b.accSlow
  vmPkts : o.vmPkts=fun _ => []
  ethPkts : o.ethPkts=fun _ => []

theorem ethFlush_spec {base : Ip} {b : EthBurst μ} {st : Staging μ}
    (h : EthStaged base b b.pkts st) :
    EthBurstOut base b {flushVm b.accVm st.dstVids
      ⟨st.vmPkts,st.ethPkts,fun _ => [],fun _ => [],[],[]⟩ with
        slow:=st.slowMsgs.take b.accSlow} := by
  have hne : ∀ v∈st.dstVids,st.vmPkts v≠[] := fun v hv => by
    rw [h.rows.vm v]
    exact (h.rows.mem v).mp hv
  obtain ⟨v1,v2,v3,v4,-⟩ := flushVm_spec b.accVm st.dstVids
    (⟨st.vmPkts,st.ethPkts,fun _ => [],fun _ => [],[],[]⟩ : Out μ) h.rows.nodup hne
  have hnil : ∀ v,v∉st.dstVids → ethSentTo base (.vm v) b.pkts=[] := by
    intro v hn
    by_contra hs
    exact hn ((h.rows.mem v).mpr hs)
  refine ⟨fun v => ?_,v3,by rw [← h.slow],funext fun v => ?_,v4.trans h.eth⟩
  · refine (v1 v).trans ?_
    by_cases hm : v∈st.dstVids
    · rw [if_pos hm]
      exact congrArg (List.take (b.accVm v)) (h.rows.vm v)
    · rw [if_neg hm,hnil v hm,List.take_nil]
  · refine (v2 v).trans ?_
    split
    · rfl
    · next hm => exact (h.rows.vm v).trans (hnil v hm)

theorem ethBurst_spec (base : Ip) (b : EthBurst μ) (hn : b.pkts.length ≤ maxPktBurst) :
    (∃ o,ethBurst base .zero b=some o ∧ EthBurstOut base b o ∧ ∀ p∈b.pkts,b.Found base p) ∨
    ethBurst base .zero b=none ∧ ∃ p∈b.pkts,¬b.Found base p := by
  have h0 : EthStaged base b [] ⟨Carry.zero.vmPkts,Carry.zero.ethPkts,[],fun _ => false,[]⟩ :=
    ⟨⟨fun _ => rfl,List.nodup_nil,by simp,by simp [ethSentTo,bucket]⟩,rfl,rfl⟩
  rcases foldlM_ethStageOne b.pkts h0 (by simpa using hn) with ⟨st,hst,hs,hall⟩ | ⟨hst,hf⟩
  · exact Or.inl ⟨_,by rw [ethBurst,ethStage,hst]; rfl,ethFlush_spec hs,hall⟩
  · refine Or.inr ⟨?_,hf⟩
    rw [ethBurst,ethStage,hst]
    rfl

end Umanet
