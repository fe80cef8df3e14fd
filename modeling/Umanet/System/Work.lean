import Umanet.System.Rounds

namespace Umanet

open Framework

variable {μ : Type} {n : Node}

/-- What an mbuf weighs at each holder. The threads hand mbufs to lighter holders, with two
exceptions: network_send puts back what the NIC refused, and the slow path adds a reply to a
ring. -/
def Holder.weight : Holder n → Nat
  | .pool | .lost => 0
  | .nic _ | .tx _ _ | .slow => 1
  | .vmRing _ => 2
  | .slowRing => 6
  | .ethTx _ _ => 2*maxPktBurst+1
  | .ethRing _ => 2*maxPktBurst+2
  | .rx _ _ => 2*maxPktBurst+3

/-- What a refused burst is allowed to cost, paid for by the packets the NIC took. -/
def EgressAt.owed {queues : Nat} : EgressAt queues μ → Nat
  | .unsent _ pkts => 2*pkts.length
  | _ => 0

def SlowAt.owed : SlowAt μ → Nat
  | .next batch | .free _ batch => 4*(arpMbufs batch).length
  | .enqueue _ _ batch => 3+4*(arpMbufs batch).length

theorem EgressAt.owed_orHead {queues : Nat} (cores : Nat) (q : Fin queues) (pkts : List μ)
    (pc : EgressAt queues μ) : (EgressAt.orHead cores q pkts pc).owed ≤ pc.owed := by
  unfold EgressAt.orHead
  split
  · exact Nat.zero_le _
  · exact Nat.le_refl _

namespace Dataplane

variable {s t : Dataplane n μ}

def sizes (s : Dataplane n μ) (h : Holder n) : Nat := (s.held h).length

def Idle (s : Dataplane n μ) : Prop := ∀ h,h≠.pool → h≠.lost → s.held h=[]

def egressOwed (s : Dataplane n μ) : Nat := ∑ c,(s.ethTx c).owed

def work (s : Dataplane n μ) : Nat := load Holder.weight s.held+s.egressOwed+s.slow.owed

theorem sizes_of_held (h : t.held=s.held) : t.sizes=s.sizes := by
  unfold sizes
  rw [h]

theorem give_ne_nil {h k : Holder n} {part : List μ} (hk : give h part k≠[]) : k=h := by
  by_contra hne
  exact hk (Function.update_of_ne hne ..)

variable [DecidableEq μ]

section
variable {p : Holder n} {left : List μ} {parts : Holder n → List μ} {stores : List (μ × Data)}

theorem Handout.load_eq (ho : Handout s t p left parts stores) (w : Holder n → Nat) :
    load w t.held+w p*load (fun _ => 1) parts=load w s.held+load w parts := by
  have hsplit : load w t.held=load w (Function.update s.held p left)+load w parts := by
    rw [ho.held]
    exact load_append ..
  have hupdate := load_update w s.held p left
  have hlen := length_eq_of_count ho.all
  rw [← hlen,Nat.mul_add] at hupdate
  omega

theorem Handout.sizes_eq (ho : Handout s t p left parts stores)
    (h : load (fun _ => 1) parts=0) : t.sizes=s.sizes := by
  funext k
  have hlen := length_eq_of_count ho.all
  have hk : t.sizes k=(Function.update s.held p left k).length := by
    rw [sizes,ho.held,List.length_append,eq_nil_of_load_one h k]
    rfl
  rw [hk]
  by_cases hp : k=p
  · subst hp
    rw [Function.update_self]
    change left.length=(s.held k).length
    omega
  · rw [Function.update_of_ne hp]
    rfl

theorem Handout.pays (ho : Handout s t p left parts stores)
    (hlow : ∀ k,parts k≠[] → k.weight < p.weight) :
    load Holder.weight t.held+(if t.sizes=s.sizes then 0 else 1) ≤ load Holder.weight s.held := by
  have heq := ho.load_eq Holder.weight
  have hle := load_add_le hlow
  by_cases hz : load (fun _ => 1) parts=0
  · rw [if_pos (ho.sizes_eq hz)]
    omega
  · split
    · omega
    · omega

end

/-- A step lowers the work, and by one at least if mbufs change hands. -/
def Paid (s t : Dataplane n μ) : Prop := t.work+(if t.sizes=s.sizes then 0 else 1) ≤ s.work

omit [DecidableEq μ] in
theorem Paid.of_load (h : load Holder.weight t.held+(if t.sizes=s.sizes then 0 else 1) ≤
      load Holder.weight s.held) (he : t.egressOwed ≤ s.egressOwed)
    (hs : t.slow.owed ≤ s.slow.owed) : Paid s t := by
  unfold Paid work
  omega

omit [DecidableEq μ] in
theorem Paid.of_held (h : t.held=s.held) (he : t.egressOwed ≤ s.egressOwed)
    (hs : t.slow.owed ≤ s.slow.owed) : Paid s t := by
  apply Paid.of_load _ he hs
  rw [h,if_pos (sizes_of_held h)]
  exact Nat.le_refl _

/-- A thread other than eth_tx_loop and slowpath_loop hands mbufs to lighter holders. -/
theorem Paid.of_handout {p : Holder n} {left : List μ} {parts : Holder n → List μ}
    {stores : List (μ × Data)} (ho : Handout s t p left parts stores)
    (hlow : ∀ k,parts k≠[] → k.weight < p.weight) (he : t.ethTx=s.ethTx) (hs : t.slow=s.slow) :
    Paid s t := by
  apply Paid.of_load (ho.pays hlow)
  · rw [egressOwed,he]
    exact Nat.le_refl _
  · rw [hs]

theorem flushEth_others {c : n.Rx} {congestion : Int} (h : s.flushEth c congestion=some t) :
    t.ethTx=s.ethTx ∧ t.slow=s.slow := by
  simp only [flushEth] at h
  repeat' split at h
  all_goals cases h
  all_goals exact ⟨rfl,rfl⟩

theorem flushVm_others {c : n.Rx} {congestion : Int} (h : s.flushVm c congestion=some t) :
    t.ethTx=s.ethTx ∧ t.slow=s.slow := by
  simp only [flushVm] at h
  repeat' split at h
  all_goals cases h
  all_goals exact ⟨rfl,rfl⟩

omit [DecidableEq μ] in
theorem flushSlow_others {c : n.Rx} (h : s.flushSlow c=some t) :
    t.ethTx=s.ethTx ∧ t.slow=s.slow := by
  simp only [flushSlow] at h
  repeat' split at h
  all_goals cases h
  exact ⟨rfl,rfl⟩

theorem flushEth_paid {c : n.Rx} {congestion : Int} (h : s.flushEth c congestion=some t) :
    Paid s t := by
  obtain ⟨he,hs⟩ := flushEth_others h
  obtain ⟨-,-,⟨hq,-⟩ | ⟨q,num,rr,ho⟩⟩ := flushEth_cases h
  · exact Paid.of_held hq (by rw [egressOwed,he]; rfl) (by rw [hs])
  · apply Paid.of_handout ho _ he hs
    intro k hk
    by_cases h1 : give (.ethRing q) ((s.held (.rx c (.eth q))).take num) k=[]
    · rw [h1,List.nil_append] at hk
      obtain rfl := give_ne_nil hk
      exact Nat.zero_lt_succ _
    · obtain rfl := give_ne_nil h1
      exact Nat.lt_succ_self _

theorem flushVm_paid {c : n.Rx} {congestion : Int} (h : s.flushVm c congestion=some t) :
    Paid s t := by
  obtain ⟨he,hs⟩ := flushVm_others h
  obtain ⟨-,-,⟨hq,-⟩ | ⟨v,num,rr,ho⟩⟩ := flushVm_cases h
  · exact Paid.of_held hq (by rw [egressOwed,he]; rfl) (by rw [hs])
  · apply Paid.of_handout ho _ he hs
    intro k hk
    by_cases h1 : give (.vmRing v) ((s.held (.rx c (.vm v))).take num) k=[]
    · rw [h1,List.nil_append] at hk
      obtain rfl := give_ne_nil hk
      exact Nat.zero_lt_succ _
    · obtain rfl := give_ne_nil h1
      simp [Holder.weight]

theorem flushSlow_paid {c : n.Rx} (h : s.flushSlow c=some t) : Paid s t := by
  obtain ⟨he,hs⟩ := flushSlow_others h
  obtain ⟨-,-,parts,hdest,ho⟩ := flushSlow_cases h
  apply Paid.of_handout ho _ he hs
  intro k hk
  obtain ⟨m,hm⟩ := List.exists_mem_of_ne_nil _ hk
  obtain rfl | rfl := hdest k m hm
  · simp [Holder.weight,maxPktBurst]
  · exact Nat.zero_lt_succ _

theorem vhostTx_paid {c : Fin n.cfg.vhostTxCores} {plan : List Vid} {a : TxAct}
    (hs : (s.tx c).Single) (h : s.vhostTx c plan a=some t) : Paid s t := by
  have hothers : t.ethTx=s.ethTx ∧ t.slow=s.slow := by
    obtain ⟨o,-,rfl⟩ := Option.map_eq_some_iff.mp h
    exact ⟨rfl,rfl⟩
  obtain ⟨he,hsl⟩ := hothers
  obtain ⟨hq,-⟩ | ⟨v,left,part,ho⟩ | ⟨v,left,part,ho⟩ := vhostTx_cases hs h
  · exact Paid.of_held hq (by rw [egressOwed,he]; rfl) (by rw [hsl])
  · apply Paid.of_handout ho _ he hsl
    intro k hk
    obtain rfl := give_ne_nil hk
    exact Nat.lt_succ_self _
  · apply Paid.of_handout ho _ he hsl
    intro k hk
    obtain rfl := give_ne_nil hk
    exact Nat.zero_lt_one

theorem nicDone_paid {q : Fin n.cfg.ethTxQueues} (h : s.step (.nicDone q)=some t) : Paid s t := by
  have hothers : t.ethTx=s.ethTx ∧ t.slow=s.slow := by
    simp only [step] at h
    split at h
    · obtain rfl := Option.some.inj h
      exact ⟨rfl,rfl⟩
    · cases h
  obtain ⟨-,-,left,part,ho⟩ := nicDone_cases h
  apply Paid.of_handout ho _ hothers.1 hothers.2
  intro k hk
  obtain rfl := give_ne_nil hk
  exact Nat.zero_lt_one

/-- A step of an eth_tx core, after which it is at `pc`. -/
structure EgressStep (s t : Dataplane n μ) (c : Fin n.ethTxCores)
    (pc : EgressAt n.cfg.ethTxQueues μ) : Prop where
  ethTx : t.ethTx=Function.update s.ethTx c pc
  slow : t.slow=s.slow

omit [DecidableEq μ] in
theorem again_cases {c : Fin n.ethTxCores} (h : s.again c=some t) :
    t.held=s.held ∧ (s.ethTx c).owed=0 ∧ EgressStep s t c (.head c.val) := by
  unfold again at h
  split at h
  · next i hpc =>
    split at h
    · cases h
    · obtain rfl := Option.some.inj h
      exact ⟨held_ethTxHead hpc,by rw [hpc]; rfl,rfl,rfl⟩
  · cases h

theorem dequeue_egress {c : Fin n.ethTxCores} (h : s.dequeue c=some t) :
    (s.ethTx c).owed=0 ∧ ∃ pc,pc.owed=0 ∧ EgressStep s t c pc := by
  simp only [dequeue] at h
  split at h
  · next i hpc =>
    refine ⟨by rw [hpc]; rfl,?_⟩
    split at h
    · split at h
      · obtain rfl := Option.some.inj h
        exact ⟨_,rfl,rfl,rfl⟩
      · obtain rfl := Option.some.inj h
        exact ⟨_,rfl,rfl,rfl⟩
    · cases h
  · cases h

omit [DecidableEq μ] in
theorem txBurst_egress {c : Fin n.ethTxCores} {num : Nat} {q : Fin n.cfg.ethTxQueues}
    {pkts : List μ} (hpc : s.ethTx c=.send q pkts) (h : s.txBurst c num=some t) :
    EgressStep s t c
      (EgressAt.orHead n.ethTxCores q (pkts.drop num) (.unsent q (pkts.drop num))) := by
  simp only [txBurst,hpc] at h
  split at h
  · obtain rfl := Option.some.inj h
    exact ⟨rfl,rfl⟩
  · cases h

omit [DecidableEq μ] in
theorem requeue_egress {c : Fin n.ethTxCores} {q : Fin n.cfg.ethTxQueues} {pkts : List μ}
    (hpc : s.ethTx c=.unsent q pkts) (h : s.requeue c=some t) :
    EgressStep s t c (EgressAt.orHead n.ethTxCores q (pkts.drop (room (s.ethRing q)))
      (.free q (pkts.drop (room (s.ethRing q))))) := by
  simp only [requeue,hpc] at h
  obtain rfl := Option.some.inj h
  exact ⟨rfl,rfl⟩

omit [DecidableEq μ] in
theorem freeOne_egress {c : Fin n.ethTxCores} (h : s.freeOne c=some t) :
    (s.ethTx c).owed=0 ∧ ∃ pc,pc.owed=0 ∧ EgressStep s t c pc := by
  unfold freeOne at h
  split at h
  · next q pkts hpc =>
    obtain ⟨m,-,rfl⟩ := Option.map_eq_some_iff.mp h
    exact ⟨by rw [hpc]; rfl,_,Nat.le_zero.mp (EgressAt.owed_orHead ..),rfl,rfl⟩
  · cases h

section
variable {c : Fin n.ethTxCores} {pc : EgressAt n.cfg.ethTxQueues μ}

omit [DecidableEq μ] in
theorem EgressStep.owed (h : EgressStep s t c pc) :
    t.egressOwed+(s.ethTx c).owed=s.egressOwed+pc.owed := by
  have hsum := sum_change (f:=fun d => (s.ethTx d).owed)
    (g:=fun d => (Function.update s.ethTx c pc d).owed) c
    (fun d hd => by rw [Function.update_of_ne hd])
  rw [Function.update_self,← h.ethTx] at hsum
  exact hsum

omit [DecidableEq μ] in
theorem again_paid (h : s.again c=some t) : Paid s t := by
  obtain ⟨hheld,howed,hstep⟩ := again_cases h
  have hsum := hstep.owed
  apply Paid.of_held hheld
  · rw [howed] at hsum
    exact Nat.le_of_eq hsum
  · rw [hstep.slow]

theorem dequeue_paid (h : s.dequeue c=some t) : Paid s t := by
  obtain ⟨howed,pc,hpc,hstep⟩ := dequeue_egress h
  have hsum := hstep.owed
  rw [howed,hpc] at hsum
  obtain ⟨-,-,⟨hq,-⟩ | ⟨q,ho⟩⟩ := dequeue_cases h
  · exact Paid.of_held hq (Nat.le_of_eq hsum) (by rw [hstep.slow])
  · apply Paid.of_load (ho.pays _) (Nat.le_of_eq hsum) (by rw [hstep.slow])
    intro k hk
    obtain rfl := give_ne_nil hk
    exact Nat.lt_succ_self _

theorem freeOne_paid (h : s.freeOne c=some t) : Paid s t := by
  obtain ⟨howed,pc,hpc,hstep⟩ := freeOne_egress h
  have hsum := hstep.owed
  rw [howed,hpc] at hsum
  obtain ⟨-,-,q,left,part,ho⟩ := freeOne_cases h
  apply Paid.of_load (ho.pays _) (Nat.le_of_eq hsum) (by rw [hstep.slow])
  intro k hk
  obtain rfl := give_ne_nil hk
  exact Nat.zero_lt_succ _

omit [DecidableEq μ] in
theorem load_give (w : Holder n → Nat) (h : Holder n) (part : List μ) :
    load w (give h part)=w h*part.length :=
  load_single w h part

theorem txBurst_paid {num : Nat} (hs : s.Tidy) (hnum : 0 < num) (h : s.txBurst c num=some t) :
    Paid s t := by
  obtain ⟨-,-,-,q,pkts,hpc,hle,-,ho⟩ := txBurst_cases h
  have hpos := hs.ethTx c
  rw [hpc] at hpos
  have hstep := txBurst_egress hpc h
  have hsum := hstep.owed
  have howed := EgressAt.owed_orHead n.ethTxCores q (pkts.drop num) (.unsent q (pkts.drop num))
  have hload := ho.load_eq Holder.weight
  rw [load_give,load_give,List.length_take_of_le hle] at hload
  rw [hpc] at hsum
  simp only [EgressAt.owed,List.length_drop] at hsum howed
  simp only [Holder.weight,maxPktBurst] at hload
  have hlen : pkts.length ≤ 64 := hpos.2.1
  unfold Paid work
  rw [hstep.slow]
  split
  · omega
  · omega

theorem requeue_paid (hs : s.Tidy) (h : s.requeue c=some t) : Paid s t := by
  obtain ⟨-,-,q,pkts,hpc,ho⟩ := requeue_cases h
  have hpos := hs.ethTx c
  rw [hpc] at hpos
  have hstep := requeue_egress hpc h
  have hsum := hstep.owed
  have howed := EgressAt.owed_orHead n.ethTxCores q (pkts.drop (room (s.ethRing q)))
    (.free q (pkts.drop (room (s.ethRing q))))
  have hload := ho.load_eq Holder.weight
  rw [load_give,load_give,List.length_take] at hload
  rw [hpc] at hsum
  simp only [EgressAt.owed] at hsum howed
  simp only [Holder.weight,maxPktBurst] at hload
  have hlen : 0 < pkts.length := List.length_pos_iff.mpr hpos.1
  unfold Paid work
  rw [hstep.slow]
  split
  · omega
  · omega

end

theorem slowDequeue_owed (h : s.step .slowDequeue=some t) :
    t.ethTx=s.ethTx ∧ s.slow=.next [] ∧ t.slow.owed=4*t.slow.held.length := by
  simp only [step] at h
  split at h
  · next hpc =>
    obtain rfl := Option.some.inj h
    exact ⟨rfl,hpc,rfl⟩
  · cases h

theorem slowDequeue_paid (h : s.step .slowDequeue=some t) : Paid s t := by
  obtain ⟨-,-,left,part,ho⟩ := slowDequeue_cases h
  obtain ⟨he,hpc,howed⟩ := slowDequeue_owed h
  have hslow : t.held .slow=s.held .slow++part := by
    simpa [give] using congrFun ho.held .slow
  have hpart : t.slow.held=part := by
    rw [show t.slow.held=t.held .slow from rfl,hslow,Dataplane.held,hpc]
    rfl
  have hload := ho.load_eq Holder.weight
  have hsizes := ho.sizes_eq
  rw [load_give] at hsizes hload
  rw [load_give] at hload
  simp only [Holder.weight] at hload
  unfold Paid work
  rw [howed,hpart,hpc,egressOwed,he]
  change load Holder.weight t.held+s.egressOwed+4*part.length+_ ≤
    load Holder.weight s.held+s.egressOwed+0
  by_cases hz : part.length=0
  · rw [if_pos (hsizes (by omega))]
    omega
  · split
    · omega
    · omega

omit [DecidableEq μ] in
theorem arpMbufs_cons_length (x : SlowMsg μ) (batch : List (SlowMsg μ)) :
    (arpMbufs (x::batch)).length=(if x.reason=.arpReq then 1 else 0)+(arpMbufs batch).length := by
  by_cases hx : x.reason=.arpReq
  · simp [arpMbufs,bucket,hx,Nat.add_comm]
  · simp [arpMbufs,bucket,hx]

theorem slowNext_owed {present : Bool} (h : s.slowNext present=some t) :
    t.ethTx=s.ethTx ∧ t.slow.owed ≤ s.slow.owed := by
  simp only [slowNext] at h
  split at h
  · next x batch hpc =>
    have hlen := arpMbufs_cons_length x batch
    rw [hpc]
    split at h
    · obtain rfl := Option.some.inj h
      refine ⟨rfl,?_⟩
      simp only [SlowAt.owed]
      omega
    · next hreason =>
      rw [if_pos hreason] at hlen
      split at h
      · obtain rfl := Option.some.inj h
        refine ⟨rfl,?_⟩
        simp only [SlowAt.owed]
        omega
      · cases hsrc : x.src with
        | vhost vid =>
          simp only [hsrc] at h
          obtain rfl := Option.some.inj h
          refine ⟨rfl,?_⟩
          simp only [SlowAt.owed]
          omega
        | eth queue =>
          simp only [hsrc] at h
          obtain rfl := Option.some.inj h
          refine ⟨rfl,?_⟩
          simp only [SlowAt.owed]
          omega
  · cases h

theorem slowNext_paid {present : Bool} (h : s.slowNext present=some t) : Paid s t := by
  obtain ⟨he,howed⟩ := slowNext_owed h
  have hegress : t.egressOwed ≤ s.egressOwed := by
    rw [egressOwed,he]
    exact Nat.le_refl _
  obtain ⟨-,-,⟨hq,-⟩ | ⟨left,m,ho⟩ | ⟨m,d,ho⟩⟩ := slowNext_cases h
  · exact Paid.of_held hq hegress howed
  · apply Paid.of_load (ho.pays _) hegress howed
    intro k hk
    obtain rfl := give_ne_nil hk
    exact Nat.zero_lt_one
  · exact Paid.of_load (ho.pays fun k hk => absurd rfl hk) hegress howed

omit [DecidableEq μ] in
theorem slowEnqueue_paid (h : s.slowEnqueue=some t) : Paid s t := by
  obtain ⟨-,-,-,vid,m,batch,hpc,hcases⟩ := slowEnqueue_cases h
  have howed : t.slow.owed+3=s.slow.owed ∧ t.ethTx=s.ethTx := by
    simp only [slowEnqueue,hpc] at h
    rw [hpc]
    split at h
    · obtain rfl := Option.some.inj h
      exact ⟨Nat.add_comm ..,rfl⟩
    · obtain rfl := Option.some.inj h
      exact ⟨Nat.add_comm ..,rfl⟩
  have hegress : t.egressOwed=s.egressOwed := by rw [egressOwed,howed.2]; rfl
  obtain ⟨-,hq⟩ | ⟨-,hheld⟩ := hcases
  · exact Paid.of_held hq (Nat.le_of_eq hegress) (by omega)
  · have hload := load_update Holder.weight s.held (.vmRing vid) (s.vmRing vid++[m])
    rw [← hheld,List.length_append,List.length_singleton] at hload
    change load Holder.weight t.held+2*(s.vmRing vid).length=
      load Holder.weight s.held+2*((s.vmRing vid).length+1) at hload
    unfold Paid work
    split
    · omega
    · omega

theorem slowFree_paid (h : s.step .slowFree=some t) : Paid s t := by
  have hothers : t.ethTx=s.ethTx ∧ t.slow.owed=s.slow.owed := by
    simp only [step] at h
    split at h
    · next m batch hpc =>
      obtain rfl := Option.some.inj h
      rw [hpc]
      exact ⟨rfl,rfl⟩
    · cases h
  obtain ⟨-,-,left,part,ho⟩ := slowFree_cases h
  apply Paid.of_load (ho.pays _) (by rw [egressOwed,hothers.1]; rfl) (Nat.le_of_eq hothers.2)
  intro k hk
  obtain rfl := give_ne_nil hk
  exact Nat.zero_lt_one

/-- Steps that do not bring new packets, with a NIC that takes something of each burst and
vhost_tx cores that have no VM in common. -/
def Working (s : Dataplane n μ) : DataAct n μ → Prop
  | .rxPoll .. | .ethPoll .. => False
  | .txBurst _ num => 0 < num
  | a => s.OneConsumer a

omit [DecidableEq μ] in
theorem Working.oneConsumer {a : DataAct n μ} (h : s.Working a) : s.OneConsumer a := by
  cases a with
  | tx c plan x => exact h
  | _ => trivial

/-- What holds between any two steps if no two vhost_tx cores have a VM in common. -/
structure Orderly (s : Dataplane n μ) : Prop where
  tidy : s.Tidy
  apart : s.Apart

omit [DecidableEq μ] in
theorem orderly_init (pool : List μ) (mem : μ → Data) : (init n pool mem).Orderly :=
  ⟨tidy_init pool mem,apart_init pool mem⟩

theorem Orderly.step {a : DataAct n μ} (hs : s.Orderly) (hg : s.OneConsumer a)
    (h : s.step a=some t) : t.Orderly :=
  ⟨hs.tidy.step h,hs.apart.step hg h⟩

theorem step_paid {a : DataAct n μ} (hs : s.Orderly) (hw : s.Working a) (h : s.step a=some t) :
    Paid s t := by
  cases a with
  | rxPoll c vid learning pkts => exact absurd hw id
  | ethPoll c queue snap pkts => exact absurd hw id
  | flushEth c congestion => exact flushEth_paid h
  | flushVm c congestion => exact flushVm_paid h
  | flushSlow c => exact flushSlow_paid h
  | tx c plan a => exact vhostTx_paid (hs.tidy.tx c).1 h
  | txRace c start => exact absurd (hs.apart.noRace h) id
  | again c => exact again_paid h
  | dequeue c => exact dequeue_paid h
  | txBurst c num => exact txBurst_paid hs.tidy hw h
  | requeue c => exact requeue_paid hs.tidy h
  | freeOne c => exact freeOne_paid h
  | nicDone q => exact nicDone_paid h
  | slowDequeue => exact slowDequeue_paid h
  | slowNext present => exact slowNext_paid h
  | slowEnqueue => exact slowEnqueue_paid h
  | slowFree => exact slowFree_paid h

end Dataplane

end Umanet
