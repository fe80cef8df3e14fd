import Umanet.Fast.TxOffload

namespace Umanet

open Framework

section
variable (ethAddr mac otherNodeMac : Mac)

/-- The rewriting of eth_tx_loop. -/
def TxMbuf.rewriteMacs (m : TxMbuf) : TxMbuf :=
  {m with data:=ethTxHeader ethAddr mac otherNodeMac m.data}

/-- All that is done to a packet between the ring and rte_eth_tx_burst. -/
def TxMbuf.prepare (m : TxMbuf) : TxMbuf :=
  setTsoFlags (m.rewriteMacs ethAddr mac otherNodeMac)

variable {ethAddr mac otherNodeMac} {d : Data} {m : TxMbuf}

theorem ethTxHeader_out {i : Nat} (hi : 12 ≤ i) : ethTxHeader ethAddr mac otherNodeMac d i=d i := by
  have hsrc : putMac d 6 ethAddr i=d i := store_out d 6 6 _ (.inr hi)
  unfold ethTxHeader
  split_ifs
  · exact hsrc
  · exact (store_out _ 0 6 _ (.inr (by omega))).trans hsrc
  · exact hsrc

theorem putMac_macAt (d : Data) (o : Nat) : putMac d o (macAt d o)=d := by
  funext i
  by_cases hi : o ≤ i ∧ i < o+6
  · obtain ⟨k,rfl⟩ : ∃ k,i=o+k := ⟨i-o,by omega⟩
    have hk : k < 6 := by omega
    rw [putMac,store_in _ _ _ _ hk,dif_pos hk]
    rfl
  · exact store_out _ _ _ _ (by omega)

theorem dstMac_putSrc : dstMac (putMac d 6 ethAddr)=dstMac d := macAt_store (by decide)

/-- The header after the rewriting: the NIC's source, and the destination by cases. -/
theorem ethTxHeader_src : srcMac (ethTxHeader ethAddr mac otherNodeMac d)=ethAddr := by
  have hsrc : srcMac (putMac d 6 ethAddr)=ethAddr := macAt_putMac d 6 ethAddr
  simp only [ethTxHeader]
  split_ifs
  · exact hsrc
  · exact (macAt_store (by decide)).trans hsrc
  · exact hsrc

theorem ethTxHeader_dst : dstMac (ethTxHeader ethAddr mac otherNodeMac d)=
    if isMulticast (dstMac d) then dstMac d
    else if ∀ i,dstMac d i=mac i then otherNodeMac else dstMac d := by
  simp only [ethTxHeader,dstMac_putSrc]
  split_ifs
  · exact dstMac_putSrc
  · exact macAt_putMac _ 0 otherNodeMac
  · exact dstMac_putSrc

theorem ethTxHeader_ethTxHeader :
    ethTxHeader ethAddr mac otherNodeMac (ethTxHeader ethAddr mac otherNodeMac d)=
      ethTxHeader ethAddr mac otherNodeMac d := by
  have hsrc : putMac (ethTxHeader ethAddr mac otherNodeMac d) 6 ethAddr=
      ethTxHeader ethAddr mac otherNodeMac d := by
    have hput := putMac_macAt (ethTxHeader ethAddr mac otherNodeMac d) 6
    rwa [show macAt (ethTxHeader ethAddr mac otherNodeMac d) 6=ethAddr from ethTxHeader_src] at hput
  conv_lhs => rw [ethTxHeader]
  simp only [hsrc]
  split
  · rfl
  · next hmulti =>
    split
    · next hmac =>
      have hother : macAt (ethTxHeader ethAddr mac otherNodeMac d) 0=otherNodeMac := by
        change dstMac _=_
        rw [ethTxHeader_dst] at hmac hmulti ⊢
        split_ifs at hmac hmulti ⊢ with h₁ h₂
        · exact absurd h₁ hmulti
        · rfl
        · exact absurd hmac h₂
      have hput := putMac_macAt (ethTxHeader ethAddr mac otherNodeMac d) 0
      rwa [hother] at hput
    · rfl

theorem setTsoFlags_congr {d' : Data} (h : ∀ i,12 ≤ i → d' i=m.data i) :
    setTsoFlags {m with data:=d'}={setTsoFlags m with data:=d'} := by
  have hty : etherType d'=etherType m.data := by
    rw [etherType,be16,h _ (by decide),h _ (by decide)]
    rfl
  have hproto : nextProtoId d'=nextProtoId m.data := h 23 (by decide)
  have hihl : ihl d'=ihl m.data := by rw [ihl,h _ (by decide),ihl]
  have hl4 : l4HeaderLen d'=l4HeaderLen m.data := by
    rw [l4HeaderLen,l4HeaderLen,hproto,l4Offset,l4Offset,hihl,h _ (by omega)]
  by_cases hip : etherType m.data=etherTypeIpv4
  · by_cases htcp : nextProtoId m.data=ipprotoTcp
    · rw [setTsoFlags_tcp (m:={m with data:=d'}) (hty.trans hip) (hproto.trans htcp),
        setTsoFlags_tcp hip htcp]
      simp only [hihl,hl4]
    · have htcp' : nextProtoId d'≠ipprotoTcp := by rwa [hproto]
      rw [setTsoFlags_other (m:={m with data:=d'}) (hty.trans hip) htcp',setTsoFlags_other hip htcp]
      simp only [hihl,hproto]
  · have hip' : etherType d'≠etherTypeIpv4 := by rwa [hty]
    rw [setTsoFlags_nonIp (m:={m with data:=d'}) hip',setTsoFlags_nonIp hip]

theorem rewriteMacs_rewriteMacs :
    (m.rewriteMacs ethAddr mac otherNodeMac).rewriteMacs ethAddr mac otherNodeMac=
      m.rewriteMacs ethAddr mac otherNodeMac := by
  simp only [TxMbuf.rewriteMacs,ethTxHeader_ethTxHeader]

theorem setTsoFlags_rewriteMacs : setTsoFlags (m.rewriteMacs ethAddr mac otherNodeMac)=
    (setTsoFlags m).rewriteMacs ethAddr mac otherNodeMac := by
  rw [TxMbuf.rewriteMacs,setTsoFlags_congr fun i hi => ethTxHeader_out hi,TxMbuf.rewriteMacs,
    setTsoFlags_data]

/-- A prepared packet is not changed by either of the two passes. -/
theorem rewriteMacs_prepare :
    (m.prepare ethAddr mac otherNodeMac).rewriteMacs ethAddr mac otherNodeMac=
      m.prepare ethAddr mac otherNodeMac := by
  rw [TxMbuf.prepare,setTsoFlags_rewriteMacs,rewriteMacs_rewriteMacs]

theorem setTsoFlags_prepare : setTsoFlags (m.prepare ethAddr mac otherNodeMac)=
    m.prepare ethAddr mac otherNodeMac := setTsoFlags_setTsoFlags

theorem prepare_prepare : (m.prepare ethAddr mac otherNodeMac).prepare ethAddr mac otherNodeMac=
    m.prepare ethAddr mac otherNodeMac := by
  conv_lhs => rw [TxMbuf.prepare]
  rw [rewriteMacs_prepare,setTsoFlags_prepare]

theorem prepare_out {i : Nat} (hi : 12 ≤ i) :
    (m.prepare ethAddr mac otherNodeMac).data i=m.data i := by
  rw [TxMbuf.prepare,setTsoFlags_data]
  exact ethTxHeader_out hi

theorem prepare_multicast (h : isMulticast (dstMac m.data)) :
    dstMac (m.prepare ethAddr mac otherNodeMac).data=dstMac m.data := by
  rw [TxMbuf.prepare,setTsoFlags_data]
  exact ethTxHeader_dst.trans (if_pos h)

end

/-- The mbufs an eth_tx core works on with their contents, and with what each was handed to
rte_eth_tx_burst since another thread last had it. -/
structure EgressMem (μ : Type) where
  egress : Egress μ
  mbuf : μ → TxMbuf
  attempts : μ → List TxMbuf

/-- Steps of the loop and of the others as before; a thread writes an mbuf it holds. -/
inductive EgressMemAct (μ : Type)
  | egress (a : EgressAct μ)
  | write (m : μ) (x : TxMbuf)

namespace EgressMem

section
variable {μ : Type} [DecidableEq μ] (ethAddr mac otherNodeMac : Mac)

/-- What a step does to the contents: the addresses are rewritten when a burst has been dequeued,
the flags are set and the packets handed over in network_send; an mbuf that another thread
moves is no longer the packet it was. -/
def follow (s : EgressMem μ) (t : Egress μ) : EgressAct μ → EgressMem μ
  | .dequeue _ =>
    match t.pc with
    | .send _ pkts => {s with
        egress:=t
        mbuf:=fun m => if m∈pkts then (s.mbuf m).rewriteMacs ethAddr mac otherNodeMac else s.mbuf m}
    | _ => {s with egress:=t}
  | .burst _ =>
    match s.egress.pc with
    | .send _ pkts => {
        egress:=t
        mbuf:=fun m => if m∈pkts then setTsoFlags (s.mbuf m) else s.mbuf m
        attempts:=fun m =>
          if m∈pkts then s.attempts m++[setTsoFlags (s.mbuf m)] else s.attempts m}
    | _ => {s with egress:=t}
  | .other _ _ m => {s with egress:=t,attempts:=Function.update s.attempts m []}
  | _ => {s with egress:=t}

def step (r cores queues : Nat) (s : EgressMem μ) : EgressMemAct μ → Option (EgressMem μ)
  | .egress a => (s.egress.step r cores queues a).map fun t =>
      s.follow ethAddr mac otherNodeMac t a
  | .write m x =>
    if m∈s.egress.others then some {s with mbuf:=Function.update s.mbuf m x} else none

def init (r : Nat) (pool : List μ) (mbuf : μ → TxMbuf) : EgressMem μ :=
  ⟨Egress.init r pool,mbuf,fun _ => []⟩

end

end EgressMem

namespace Egress

section
variable {μ : Type} [DecidableEq μ] {s t : Egress μ} {r cores queues : Nat}

theorem step_other {p q : Spot} {m : μ} (h : s.step r cores queues (.other p q m)=some t) :
    t.pc=s.pc ∧ ∀ x∈t.others,x=m ∨ x∈s.others := by
  simp only [step] at h
  split at h
  · next hm =>
    have h' := Option.some.inj h
    subst h'
    obtain ⟨hp,hq,-⟩ := passes_spec hm.1
    refine ⟨by rw [(put_frame q _).1,(put_frame p _).1],?_⟩
    intro x hx
    change x∈Egress.places _ .others at hx
    rw [places_put hq,places_put hp] at hx
    by_cases hto : Spot.others=q
    · rw [← hto,Function.update_self] at hx
      rcases List.mem_append.mp hx with hx | hx
      · exact .inr hx
      · exact .inl (List.mem_singleton.mp hx)
    · rw [Function.update_of_ne hto] at hx
      by_cases hof : Spot.others=p
      · rw [← hof,Function.update_self] at hx
        exact .inr (List.mem_of_mem_erase hx)
      · rw [Function.update_of_ne hof] at hx
        exact .inr hx
  · cases h

/-- The loop leaves alone what the others have, and is before rte_eth_tx_burst only when it has
just dequeued a burst. -/
theorem step_loop {a : EgressAct μ} (ha : ∀ p q m,a≠.other p q m)
    (h : s.step r cores queues a=some t) :
    t.others=s.others ∧ ∀ i pkts,t.pc=.send i pkts → ∃ num,a=.dequeue num := by
  cases a with
  | other p q m => exact absurd rfl (ha p q m)
  | dequeue num =>
    refine ⟨?_,fun _ _ _ => ⟨num,rfl⟩⟩
    simp only [step] at h
    split at h
    · split_ifs at h
      · have h' := Option.some.inj h
        subst h'
        rfl
      · have h' := Option.some.inj h
        subst h'
        rfl
    · cases h
  | again =>
    simp only [step] at h
    split at h
    · split_ifs at h
      have h' := Option.some.inj h
      subst h'
      exact ⟨rfl,fun _ _ hpc => by cases hpc⟩
    · cases h
  | burst sent =>
    simp only [step] at h
    split at h
    · split_ifs at h
      all_goals
        have h' := Option.some.inj h
        subst h'
        exact ⟨rfl,fun _ _ hpc => by cases hpc⟩
    · cases h
  | requeue num =>
    simp only [step] at h
    split at h
    · split_ifs at h
      all_goals
        have h' := Option.some.inj h
        subst h'
        exact ⟨rfl,fun _ _ hpc => by cases hpc⟩
    · cases h
  | free =>
    simp only [step] at h
    split at h
    · have h' := Option.some.inj h
      subst h'
      exact ⟨rfl,fun _ _ hpc => by cases hpc⟩
    · obtain ⟨m,-,h'⟩ := Option.map_eq_some_iff.mp h
      subst h'
      exact ⟨rfl,fun _ _ hpc => by cases hpc⟩
    · cases h

end

end Egress

namespace EgressMem

section
variable {μ : Type} [DecidableEq μ] (ethAddr mac otherNodeMac : Mac)

/-- What was handed over is what the mbuf holds, and neither pass would change it. -/
structure Inv (r cores : Nat) (s : EgressMem μ) : Prop where
  egress : Egress.Inv r cores s.egress
  same : ∀ m,∀ a∈s.attempts m,a=s.mbuf m ∧ a.rewriteMacs ethAddr mac otherNodeMac=a ∧ setTsoFlags a=a
  others : ∀ m∈s.egress.others,s.attempts m=[]
  send : ∀ i pkts,s.egress.pc=.send i pkts →
    ∀ m∈pkts,(s.mbuf m).rewriteMacs ethAddr mac otherNodeMac=s.mbuf m

variable {ethAddr mac otherNodeMac} {s t : EgressMem μ} {r cores queues : Nat}

omit [DecidableEq μ] in
theorem Inv.not_sending [DecidableEq μ] (h : Inv ethAddr mac otherNodeMac r cores s) {i : Nat}
    {pkts : List μ} (hpc : s.egress.pc=.send i pkts) {m : μ} (hm : m∈s.egress.others) : m∉pkts := by
  intro hheld
  have hhand : m∈s.egress.places .hand := by
    simp only [Egress.places,hpc,EgressPc.held]
    exact hheld
  cases h.egress.apart.one (p:=.others) hm hhand

theorem init_inv {pool : List μ} (h : pool.Nodup) (mbuf : μ → TxMbuf) :
    Inv ethAddr mac otherNodeMac r cores (init r pool mbuf) := by
  refine ⟨Egress.init_inv h,?_,?_,?_⟩
  · intro m a ha
    cases ha
  · intro m hm
    rfl
  · intro i pkts hpc
    cases hpc

theorem Inv.dequeued (h : Inv ethAddr mac otherNodeMac r cores s) {u : Egress μ} {num : Nat}
    (hu : s.egress.step r cores queues (.dequeue num)=some u) :
    Inv ethAddr mac otherNodeMac r cores (s.follow ethAddr mac otherNodeMac u (.dequeue num)) := by
  have hinv := Egress.step_inv h.egress hu
  obtain ⟨hothers,-⟩ := Egress.step_loop (by simp) hu
  have hothers' : ∀ m∈u.others,s.attempts m=[] := by
    rw [hothers]
    exact h.others
  simp only [follow]
  split
  · next i pkts hpc =>
    refine ⟨hinv,?_,hothers',?_⟩
    · intro m a ha
      obtain ⟨hmbuf,hmacs,htso⟩ := h.same m a ha
      refine ⟨?_,hmacs,htso⟩
      show a=if m∈pkts then _ else _
      split
      · rw [← hmbuf,hmacs]
      · exact hmbuf
    · intro j pkts' hpc' m hm
      have hpkts : pkts=pkts' := by
        rw [show _=_ from hpc] at hpc'
        injection hpc'
      subst hpkts
      simp only [if_pos hm]
      exact rewriteMacs_rewriteMacs
  · next hpc =>
    refine ⟨hinv,h.same,hothers',?_⟩
    intro i pkts hpc'
    exact absurd hpc' (hpc i pkts)

theorem Inv.handed (h : Inv ethAddr mac otherNodeMac r cores s) {u : Egress μ} {sent : Nat}
    (hu : s.egress.step r cores queues (.burst sent)=some u) :
    Inv ethAddr mac otherNodeMac r cores (s.follow ethAddr mac otherNodeMac u (.burst sent)) := by
  have hinv := Egress.step_inv h.egress hu
  obtain ⟨hothers,hsend⟩ := Egress.step_loop (by simp) hu
  have hsend' : ∀ i pkts,u.pc≠.send i pkts := by
    intro i pkts hpc
    obtain ⟨num,hnum⟩ := hsend i pkts hpc
    cases hnum
  simp only [follow]
  split
  · next i pkts hpc =>
    refine ⟨hinv,?_,?_,fun i pkts hpc => absurd hpc (hsend' i pkts)⟩
    · intro m a ha
      by_cases hm : m∈pkts
      · simp only [if_pos hm] at ha ⊢
        rcases List.mem_append.mp ha with ha | ha
        · obtain ⟨hmbuf,hmacs,htso⟩ := h.same m a ha
          refine ⟨?_,hmacs,htso⟩
          rw [← hmbuf,htso]
        · rw [List.mem_singleton.mp ha]
          refine ⟨rfl,?_,setTsoFlags_setTsoFlags⟩
          rw [← setTsoFlags_rewriteMacs,h.send i pkts hpc m hm]
      · simp only [if_neg hm] at ha ⊢
        exact h.same m a ha
    · intro m hm
      rw [hothers] at hm
      show (if m∈pkts then _ else _)=[]
      rw [if_neg (h.not_sending hpc hm)]
      exact h.others m hm
  · exact ⟨hinv,h.same,fun m hm => h.others m (hothers ▸ hm),
      fun i pkts hpc => absurd hpc (hsend' i pkts)⟩

theorem Inv.otherStep (h : Inv ethAddr mac otherNodeMac r cores s) {u : Egress μ} {p q : Spot} {m : μ}
    (hu : s.egress.step r cores queues (.other p q m)=some u) :
    Inv ethAddr mac otherNodeMac r cores (s.follow ethAddr mac otherNodeMac u (.other p q m)) := by
  obtain ⟨hpc,hothers⟩ := Egress.step_other hu
  refine ⟨Egress.step_inv h.egress hu,?_,?_,?_⟩
  · intro x a ha
    by_cases hx : x=m
    · rw [hx] at ha
      simp only [follow,Function.update_self] at ha
      cases ha
    · simp only [follow,Function.update_of_ne hx] at ha
      exact h.same x a ha
  · intro x hx
    by_cases hxm : x=m
    · rw [hxm]
      exact Function.update_self _ _ _
    · rcases hothers x hx with hx' | hx'
      · exact absurd hx' hxm
      · exact (Function.update_of_ne hxm _ _).trans (h.others x hx')
  · intro i pkts hsend
    exact h.send i pkts (hpc ▸ hsend)

theorem Inv.loopStep (h : Inv ethAddr mac otherNodeMac r cores s) {u : Egress μ} {a : EgressAct μ}
    (ha : ∀ p q m,a≠.other p q m) (hdeq : ∀ num,a≠.dequeue num)
    (hu : s.egress.step r cores queues a=some u) :
    Inv ethAddr mac otherNodeMac r cores {s with egress:=u} := by
  obtain ⟨hothers,hsend⟩ := Egress.step_loop ha hu
  refine ⟨Egress.step_inv h.egress hu,h.same,?_,?_⟩
  · intro m hm
    exact h.others m (hothers ▸ hm)
  · intro i pkts hpc
    obtain ⟨num,hnum⟩ := hsend i pkts hpc
    exact absurd hnum (hdeq num)

theorem Inv.written (h : Inv ethAddr mac otherNodeMac r cores s) {m : μ}
    (hm : m∈s.egress.others) (x : TxMbuf) :
    Inv ethAddr mac otherNodeMac r cores {s with mbuf:=Function.update s.mbuf m x} := by
  refine ⟨h.egress,?_,h.others,?_⟩
  · intro y a ha
    by_cases hy : y=m
    · rw [hy,h.others m hm] at ha
      cases ha
    · simp only [Function.update_of_ne hy]
      exact h.same y a ha
  · intro i pkts hpc y hy
    have hne : y≠m := by
      intro heq
      subst heq
      exact h.not_sending hpc hm hy
    simp only [Function.update_of_ne hne]
    exact h.send i pkts hpc y hy

theorem step_inv {a : EgressMemAct μ} (h : Inv ethAddr mac otherNodeMac r cores s)
    (ht : s.step ethAddr mac otherNodeMac r cores queues a=some t) :
    Inv ethAddr mac otherNodeMac r cores t := by
  cases a with
  | egress a =>
    obtain ⟨u,hu,ht'⟩ := Option.map_eq_some_iff.mp ht
    subst ht'
    cases a with
    | dequeue num => exact h.dequeued hu
    | burst sent => exact h.handed hu
    | other p q m => exact h.otherStep hu
    | again => exact h.loopStep (by simp) (by simp) hu
    | requeue num => exact h.loopStep (by simp) (by simp) hu
    | free => exact h.loopStep (by simp) (by simp) hu
  | write m x =>
    simp only [step] at ht
    split at ht
    · next hm =>
      have ht' := Option.some.inj ht
      subst ht'
      exact h.written hm x
    · cases ht

end

/-- Preparing a packet twice is preparing it once, only the two addresses change and a broadcast
or multicast destination does not; so in every run, however often a packet is put back into
its ring, it is handed over with the same bytes and metadata each time. -/
theorem requeue_transparent (ethAddr mac otherNodeMac : Mac) :
    (∀ m : TxMbuf,(m.prepare ethAddr mac otherNodeMac).prepare ethAddr mac otherNodeMac=
      m.prepare ethAddr mac otherNodeMac) ∧
    (∀ (m : TxMbuf) (n : Nat),(TxMbuf.prepare ethAddr mac otherNodeMac)^[n+1] m=
      m.prepare ethAddr mac otherNodeMac) ∧
    (∀ (m : TxMbuf) (i : Nat),12 ≤ i → (m.prepare ethAddr mac otherNodeMac).data i=m.data i) ∧
    (∀ m : TxMbuf,isMulticast (dstMac m.data) ∨ (∀ i,dstMac m.data i=0xff) →
      dstMac (m.prepare ethAddr mac otherNodeMac).data=dstMac m.data) ∧
    ∀ (μ : Type) [DecidableEq μ] (r cores queues : Nat) (pool : List μ) (mbuf : μ → TxMbuf)
      (s : EgressMem μ),pool.Nodup →
      Reaches (step ethAddr mac otherNodeMac r cores queues) anyStep (init r pool mbuf) s →
      ∀ m,∀ a∈s.attempts m,∀ b∈s.attempts m,a=b := by
  refine ⟨fun m => prepare_prepare,?_,fun m i => prepare_out,?_,?_⟩
  · intro m n
    induction n with
    | zero => rfl
    | succ n ih => rw [Function.iterate_succ_apply',ih,prepare_prepare]
  · rintro m (hmulti | hbroad)
    · exact prepare_multicast hmulti
    · apply prepare_multicast
      rw [isMulticast,hbroad 0]
      decide
  · intro μ _ r cores queues pool mbuf s hpool hs m a ha b hb
    have hinv : Inv ethAddr mac otherNodeMac r cores s :=
      hs.invariant (init_inv hpool mbuf) fun hi _ ht => step_inv hi ht
    rw [(hinv.same m a ha).1,(hinv.same m b hb).1]

/-- The NIC takes nothing of the first burst; the packet is put back and sent with the second. -/
def requeuedRun : List (EgressMemAct Nat) :=
  [.egress (.other .pool .others 1),.write 1 ⟨⟨0,0,0,0,0,tcpFrame⟩,2⟩,
    .egress (.other .others (.ring 0) 1),.egress (.dequeue 1),.egress (.burst 0),
    .egress (.requeue 1),.egress .again,.egress (.dequeue 1),.egress (.burst 1)]

theorem requeue_transparent_requeuedRun : ∃ s : EgressMem Nat,
    Reaches (step (fun _ => 2) (fun _ => 4) (fun _ => 6) 0 1 1) anyStep
      (init 0 [1] fun _ => ⟨⟨0,0,0,0,0,tcpFrame⟩,1⟩) s ∧
    (s.attempts 1).length=2 ∧ ∀ a∈s.attempts 1,∀ b∈s.attempts 1,a=b := by
  have hrun : (guardedRun (step (fun _ => 2) (fun _ => 4) (fun _ => 6) 0 1 1) anyStep
      (init 0 [1] fun _ => ⟨⟨0,0,0,0,0,tcpFrame⟩,1⟩) requeuedRun).map
      (fun s => (s.attempts 1).length)=some 2 := by decide +kernel
  obtain ⟨s,hs,hlen⟩ := exists_reaches_of_guardedRun requeuedRun _ hrun
  obtain ⟨-,-,-,-,hsame⟩ := requeue_transparent (fun _ => 2) (fun _ => 4) (fun _ => 6)
  exact ⟨s,hs,hlen,hsame Nat 0 1 1 [1] _ s (by decide) hs 1⟩

end EgressMem

end Umanet
