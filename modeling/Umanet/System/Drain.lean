import Umanet.System.Authentic
import Umanet.System.Work

namespace Umanet

open Framework

/-- The next step of a thread or of the NIC, as far as it is a matter of when it runs and of the
plan it finds. -/
inductive Move (n : Node)
  | flushEth (c : n.Rx)
  | flushVm (c : n.Rx)
  | flushSlow (c : n.Rx)
  | load (c : Fin n.cfg.vhostTxCores) (plan : List Vid)
  | visit (c : Fin n.cfg.vhostTxCores) (start : Nat)
  | send (c : Fin n.cfg.vhostTxCores)
  | again (c : Fin n.ethTxCores)
  | dequeue (c : Fin n.ethTxCores)
  | txBurst (c : Fin n.ethTxCores)
  | requeue (c : Fin n.ethTxCores)
  | freeOne (c : Fin n.ethTxCores)
  | nicDone (q : Fin n.cfg.ethTxQueues)
  | slowDequeue
  | slowNext
  | slowEnqueue
  | slowFree

/-- What a step finds out when it runs: how full a ring seems, the clock, what the VM and the
NIC take, whether the device is still there, and whether another core is faster. -/
structure Answer where
  congestion : Int
  now : Nat
  ret : Int
  num : Nat
  present : Bool
  race : Bool

variable {μ : Type} {n : Node}

def Move.act (m : Move n) (e : Answer) : DataAct n μ :=
  match m with
  | .flushEth c => .flushEth c e.congestion
  | .flushVm c => .flushVm c e.congestion
  | .flushSlow c => .flushSlow c
  | .load c plan => .tx c plan .load
  | .visit c start =>
    if e.race then .txRace c start else .tx c [] (.visit start e.now e.ret)
  | .send c => .tx c [] (.send e.now e.ret)
  | .again c => .again c
  | .dequeue c => .dequeue c
  | .txBurst c => .txBurst c e.num
  | .requeue c => .requeue c
  | .freeOne c => .freeOne c
  | .nicDone q => .nicDone q
  | .slowDequeue => .slowDequeue
  | .slowNext => .slowNext e.present
  | .slowEnqueue => .slowEnqueue
  | .slowFree => .slowFree

/-- An answer to every move, with a NIC that takes one packet. -/
def Answer.one : Answer := ⟨0,0,0,1,false,false⟩

namespace Dataplane

variable [DecidableEq μ] {s t : Dataplane n μ}

/-- The threads can be run so that mbufs change hands, whatever NIC and VMs do. -/
def Advances (s : Dataplane n μ) : Prop :=
  Forces step Working Move.act (fun t : Dataplane n μ => t.sizes≠s.sizes) s

/-- Only answers after which every holder has as many mbufs as before need to be followed up. -/
theorem Advances.of_move (m : Move n) (hw : s.Working (m.act .one))
    (hlive : (s.step (m.act .one)).isSome)
    (h : ∀ e t,s.Working (m.act e) → s.step (m.act e)=some t → t.sizes=s.sizes → t.Advances) :
    s.Advances := by
  refine .later m ⟨.one,hw,hlive⟩ fun e t hg ht => ?_
  by_cases hsame : t.sizes=s.sizes
  · have hadv := h e t hg ht hsame
    unfold Advances at hadv
    rw [hsame] at hadv
    exact hadv
  · exact .done hsame

omit [DecidableEq μ] in
theorem sizes_eq_zero {k : Holder n} (h : s.held k=[]) : s.sizes k=0 :=
  List.length_eq_zero_iff.mpr h

theorem Handout.sizes_add {p : Holder n} {left : List μ} {parts : Holder n → List μ}
    {stores : List (μ × Data)} (ho : Handout s t p left parts stores) (hp : parts p=[]) :
    t.sizes p+load (fun _ => 1) parts=s.sizes p := by
  rw [sizes,congrFun ho.held p,Function.update_self,hp,List.append_nil]
  exact length_eq_of_count ho.all

/-- A part that goes to one other holder is empty if nobody has more or less than before. -/
theorem Handout.part_eq_nil {p q : Holder n} {left part : List μ} {stores : List (μ × Data)}
    (ho : Handout s t p left (give q part) stores) (hpq : p≠q) (hsame : t.sizes=s.sizes) :
    part=[] := by
  have hadd := ho.sizes_add (Function.update_of_ne hpq ..)
  rw [load_give,hsame] at hadd
  exact List.length_eq_zero_iff.mp (by omega)

section
variable {c : n.Rx} {r : Row n}

omit [DecidableEq μ] in
theorem rx_pc (core : RxThread μ) : (Function.update s.rx c core c).pc=core.pc := by
  rw [Function.update_self]

theorem slow_advances {msgs : List (SlowMsg μ)} (hs : s.Tidy) (hpc : (s.rx c).pc=.slow msgs)
    (hr : s.sizes (.rx c r)≠0) : s.Advances := by
  have hzero := hs.rx c
  simp only [RxThread.Tidy,hpc] at hzero
  cases r with
  | vm v | eth q =>
    refine absurd (sizes_eq_zero ?_) hr
    simp only [Dataplane.held,RxThread.row,hzero]
    rfl
  | msgs =>
    refine .of_move (.flushSlow c) trivial (by simp [Move.act,step,flushSlow,hpc])
      fun e t _ ht hsame => ?_
    obtain ⟨-,-,parts,hdest,ho⟩ := flushSlow_cases ht
    refine absurd ?_ hr
    rw [← hsame]
    apply sizes_eq_zero
    rw [congrFun ho.held (.rx c .msgs),Function.update_self,List.nil_append]
    apply List.eq_nil_iff_forall_not_mem.mpr
    intro m hm
    obtain hk | hk := hdest _ m hm
    · cases hk
    · cases hk

/-- In the loop over dst_vids the first row is flushed, or the loop is over. -/
theorem vm_advances {dstVids : List Vid} {msgs : List (SlowMsg μ)} (hs : s.Tidy)
    (hpc : (s.rx c).pc=.vm dstVids msgs) (hr : s.sizes (.rx c r)≠0) : s.Advances := by
  have hrx := hs.rx c
  simp only [RxThread.Tidy,hpc] at hrx
  cases dstVids with
  | nil =>
    refine .of_move (.flushVm c) trivial (by simp [Move.act,step,flushVm,hpc])
      fun e t _ ht hsame => ?_
    have hs' := hs.step ht
    simp only [Move.act,step,flushVm,hpc] at ht
    obtain rfl := Option.some.inj ht
    exact slow_advances (r:=r) hs' (rx_pc _) (hsame ▸ hr)
  | cons v vs =>
    obtain ⟨hv,-⟩ := hrx.2.cons
    have hne : ¬((s.rx c).arrays.vmPkts v).isEmpty := fun he => hv (List.isEmpty_iff.mp he)
    refine .of_move (.flushVm c) trivial (by simp [Move.act,step,flushVm,hpc,hne])
      fun e t _ ht hsame => ?_
    simp only [Move.act,step,flushVm,hpc] at ht
    rw [if_neg hne] at ht
    obtain rfl := Option.some.inj ht
    refine absurd (congrFun hsame (.rx c (.vm v))) ?_
    rw [sizes_eq_zero]
    · exact (List.length_pos_iff.mpr hv).ne
    · change (Function.update s.rx c _ c).row (.vm v : Row n)=[]
      rw [Function.update_self]
      exact Function.update_self ..

/-- In the loop over the egress queues the next row in use is flushed, or the loop is over. -/
theorem eth_advances {j : Nat} {dstVids : List Vid} {msgs : List (SlowMsg μ)} (hs : s.Tidy)
    (hpc : (s.rx c).pc=.eth j dstVids msgs) (hr : s.sizes (.rx c r)≠0) : s.Advances := by
  induction hd : n.cfg.ethTxQueues-j generalizing s j with
  | zero =>
    have hj : ¬j < n.cfg.ethTxQueues := by omega
    refine .of_move (.flushEth c) trivial (by simp [Move.act,step,flushEth,hpc,hj])
      fun e t _ ht hsame => ?_
    have hs' := hs.step ht
    simp only [Move.act,step,flushEth,hpc] at ht
    rw [dif_neg hj] at ht
    obtain rfl := Option.some.inj ht
    exact vm_advances (r:=r) hs' (rx_pc _) (hsame ▸ hr)
  | succ d ih =>
    have hj : j < n.cfg.ethTxQueues := by omega
    by_cases hrow : (s.rx c).arrays.ethPkts j=[]
    · refine .of_move (.flushEth c) trivial (by simp [Move.act,step,flushEth,hpc,hj,hrow])
        fun e t _ ht hsame => ?_
      have hs' := hs.step ht
      simp only [Move.act,step,flushEth,hpc] at ht
      rw [dif_pos hj,if_pos (List.isEmpty_iff.mpr hrow)] at ht
      obtain rfl := Option.some.inj ht
      exact ih hs' (rx_pc {s.rx c with pc:=.eth (j+1) dstVids msgs}) (hsame ▸ hr) (by omega)
    · have hne : ¬((s.rx c).arrays.ethPkts j).isEmpty := fun he => hrow (List.isEmpty_iff.mp he)
      refine .of_move (.flushEth c) trivial (by simp [Move.act,step,flushEth,hpc,hj,hne])
        fun e t _ ht hsame => ?_
      simp only [Move.act,step,flushEth,hpc] at ht
      rw [dif_pos hj,if_neg hne] at ht
      obtain rfl := Option.some.inj ht
      refine absurd (congrFun hsame (.rx c (.eth ⟨j,hj⟩))) ?_
      rw [sizes_eq_zero]
      · exact (List.length_pos_iff.mpr hrow).ne
      · change (Function.update s.rx c _ c).row (.eth ⟨j,hj⟩)=[]
        rw [Function.update_self]
        exact Function.update_self ..

theorem rx_advances (hs : s.Tidy) (hr : s.sizes (.rx c r)≠0) : s.Advances := by
  cases hpc : (s.rx c).pc with
  | poll =>
    have hzero := hs.rx c
    simp only [RxThread.Tidy,hpc] at hzero
    refine absurd (sizes_eq_zero ?_) hr
    cases r with
    | vm v | eth q =>
      simp only [Dataplane.held,RxThread.row,hzero]
      rfl
    | msgs =>
      simp only [Dataplane.held,RxThread.row,hpc]
      rfl
  | eth j dstVids msgs => exact eth_advances hs hpc hr
  | vm dstVids msgs => exact vm_advances hs hpc hr
  | slow msgs => exact slow_advances hs hpc hr

end

section
variable {core : TxCore μ} {rings : Vid → List μ} {start now : Nat} {ret : Int} {v : Vid}
  {todo : List Vid}

omit [DecidableEq μ] in
theorem serve_of_retry (hskip : (core.slot v).skips start=false) (hretry : (core.slot v).retry≠[]) :
    core.serve rings start now ret v todo=
      core.offer rings v (core.slot v).retry (vhostResend now ret (core.slot v)) todo := by
  unfold TxCore.serve
  rw [if_neg (by simp [hskip]),if_neg (by simp [hretry])]

omit [DecidableEq μ] in
theorem serve_of_ring (hskip : (core.slot v).skips start=false) (hretry : (core.slot v).retry=[])
    (hring : rings v≠[]) : core.serve rings start now ret v todo=
      TxCore.quiet {core with pc:=.send v ((rings v).take maxPktBurst) todo}
        (Function.update rings v ((rings v).drop maxPktBurst)) := by
  unfold TxCore.serve
  rw [if_neg (by simp [hskip]),if_pos (by simp [hretry])]
  dsimp only
  rw [if_neg (by simp [hring,maxPktBurst])]

omit [DecidableEq μ] in
theorem serve_of_nothing (hskip : (core.slot v).skips start=false)
    (hretry : (core.slot v).retry=[]) (hring : rings v=[]) :
    core.serve rings start now ret v todo=TxCore.quiet {core with pc:=.loop todo} rings := by
  unfold TxCore.serve
  rw [if_neg (by simp [hskip]),if_pos (by simp [hretry])]
  dsimp only
  rw [if_pos (by simp [hring]),hring,List.drop_nil,← hring,Function.update_eq_self]

end

section
variable {c : Fin n.cfg.vhostTxCores} {v : Vid} {todo : List Vid}

omit [DecidableEq μ] in
theorem held_tx_loop (hpc : (s.tx c).pc=.loop todo) (v : Vid) :
    s.held (.tx c v)=((s.tx c).slot v).retry := by
  simp only [Dataplane.held,TxCore.line,TxCore.held,hpc,List.append_nil]

/-- How many visits the vhost_tx cores have ahead. -/
def ahead (s : Dataplane n μ) : Nat := ∑ d,(s.tx d).todo.length

omit [DecidableEq μ] in
theorem ahead_update {core : TxCore μ} (htx : t.tx=Function.update s.tx c core)
    (h : core.todo.length < (s.tx c).todo.length) : t.ahead < s.ahead := by
  have hsum := sum_change (f:=fun d => (s.tx d).todo.length)
    (g:=fun d => (Function.update s.tx c core d).todo.length) c
    (fun d hd => by rw [Function.update_of_ne hd])
  rw [Function.update_self,← htx] at hsum
  change t.ahead+_=s.ahead+_ at hsum
  omega

omit [DecidableEq μ] in
/-- A visit after the deadline serves the VM, or there is nothing for it. -/
theorem visit_quiet {plan : List Vid} {start now : Nat} {ret : Int}
    (hpc : (s.tx c).pc=.loop (v::todo)) (hskip : ((s.tx c).slot v).skips start=false)
    (h : s.vhostTx c plan (.visit start now ret)=some t) (hsame : t.sizes=s.sizes) :
    s.sizes (.tx c v)=0 ∧ s.sizes (.vmRing v)=0 ∧ t.ahead < s.ahead := by
  simp only [vhostTx,TxCore.step,hpc,Option.map_some] at h
  by_cases hretry : ((s.tx c).slot v).retry=[]
  · by_cases hring : s.vmRing v=[]
    · rw [serve_of_nothing hskip hretry hring] at h
      obtain rfl := Option.some.inj h
      refine ⟨sizes_eq_zero ?_,sizes_eq_zero hring,ahead_update rfl ?_⟩
      · rw [held_tx_loop hpc v]
        exact hretry
      · simp [TxCore.todo,TxCore.quiet,hpc]
    · rw [serve_of_ring hskip hretry hring] at h
      obtain rfl := Option.some.inj h
      have hlen : (Function.update s.vmRing v ((s.vmRing v).drop maxPktBurst) v).length=
        (s.vmRing v).length := congrFun hsame (.vmRing v)
      rw [Function.update_self,List.length_drop] at hlen
      have hpos := List.length_pos_iff.mpr hring
      simp only [maxPktBurst] at hlen
      omega
  · rw [serve_of_retry hskip hretry] at h
    obtain rfl := Option.some.inj h
    refine absurd (congrFun hsame (.tx c v)) ?_
    rw [sizes_eq_zero]
    · rw [sizes,held_tx_loop hpc v]
      exact (List.length_pos_iff.mpr hretry).ne
    · change (Function.update s.tx c _ c).line v=[]
      rw [Function.update_self]
      change (Function.update (s.tx c).slot v _ v).retry++[]=[]
      rw [Function.update_self,vhostResend_retry,List.append_nil]

/-- A vhost_tx core visits a VM after its deadline. Nobody else is at the VM's ring. -/
theorem visit_advances (hs : s.Orderly) (hpc : (s.tx c).pc=.loop (v::todo))
    (h : ∀ t : Dataplane n μ,t.Orderly → t.sizes=s.sizes → s.sizes (.tx c v)=0 →
      s.sizes (.vmRing v)=0 → t.ahead < s.ahead → t.Advances) : s.Advances := by
  have hskip : ((s.tx c).slot v).skips ((s.tx c).slot v).bp.blockedUntil=false := by
    simp [TxSlot.skips]
  refine .of_move (.visit c ((s.tx c).slot v).bp.blockedUntil) trivial
    (by simp [Move.act,Answer.one,step,vhostTx,TxCore.step,hpc]) fun e t hw ht hsame => ?_
  have hs' := hs.step hw.oneConsumer ht
  cases hrace : e.race with
  | true =>
    simp only [Move.act,hrace,if_true] at ht
    exact absurd (hs.apart.noRace ht) id
  | false =>
    simp only [Move.act,hrace] at ht
    obtain ⟨hline,hring,hlt⟩ := visit_quiet hpc hskip ht hsame
    exact h t hs' hsame hline hring hlt

/-- Packets for a VM, in its ring or with a core, are served: the cores finish their rounds, and
then one of them loads a plan with the VM. A VM that takes nothing of a burst costs one visit
more. -/
theorem tx_advances (hs : s.Orderly) (hne : s.sizes (.tx c v)≠0 ∨ s.sizes (.vmRing v)≠0) :
    s.Advances := by
  induction hd : s.ahead using Nat.strong_induction_on generalizing s with
  | _ k ih =>
    subst hd
    have hnext : ∀ t : Dataplane n μ,t.Orderly → t.sizes=s.sizes → t.ahead < s.ahead →
        t.Advances := by
      intro t ht hsame hlt
      exact ih t.ahead hlt ht (by rw [hsame]; exact hne) rfl
    by_cases hall : ∀ d,(s.tx d).pc=.loop []
    · have hone : s.Working (Move.act (.load c [v]) .one) := by
        intro d _ u _
        rw [TxCore.todo,hall d]
        exact List.not_mem_nil
      refine .of_move (.load c [v]) hone
        (by simp [Move.act,step,vhostTx,TxCore.step,hall c]) fun e t hw ht hsame => ?_
      have hs' := hs.step hw.oneConsumer ht
      have hpc : (t.tx c).pc=.loop [v] := by
        simp only [Move.act,step,vhostTx,TxCore.step,hall c,Option.map_some] at ht
        obtain rfl := Option.some.inj ht
        change (Function.update s.tx c _ c).pc=.loop [v]
        rw [Function.update_self]
        rfl
      refine visit_advances hs' hpc fun u _ _ hline hring _ => ?_
      rw [hsame] at hline hring
      exact absurd hne (not_or.mpr ⟨not_not.mpr hline,not_not.mpr hring⟩)
    · obtain ⟨d,hd⟩ := not_forall.mp hall
      cases hpc : (s.tx d).pc with
      | loop todo =>
        cases todo with
        | nil => exact absurd hpc hd
        | cons u todo =>
          exact visit_advances hs hpc fun t ht hsame _ _ hlt => hnext t ht hsame hlt
      | send u pkts todo =>
        refine .of_move (.send d) trivial (by simp [Move.act,step,vhostTx,TxCore.step,hpc])
          fun e t hw ht hsame => hnext t (hs.step hw.oneConsumer ht) hsame ?_
        simp only [Move.act,step,vhostTx,TxCore.step,hpc,Option.map_some] at ht
        obtain rfl := Option.some.inj ht
        apply ahead_update rfl
        simp [TxCore.todo,TxCore.offer,hpc]

end

section
variable {c : Fin n.ethTxCores} {q : Fin n.cfg.ethTxQueues} {pkts : List μ}

/-- An eth_tx core takes packets of its queue, or the queue is empty and it goes on. -/
theorem dequeue_advances {i : Nat} (hpc : s.ethTx c=.head i) (hi : i < n.cfg.ethTxQueues)
    (h : ∀ t : Dataplane n μ,t.sizes=s.sizes → s.sizes (.ethRing ⟨i,hi⟩)=0 →
      t.ethTx c=.head (i+n.ethTxCores) → t.Advances) : s.Advances := by
  refine .of_move (.dequeue c) trivial ?_ fun e t _ ht hsame => ?_
  · simp only [Move.act,step,dequeue,hpc]
    rw [dif_pos hi]
    split
    · rfl
    · rfl
  · simp only [Move.act,step,dequeue,hpc] at ht
    rw [dif_pos hi] at ht
    split at ht
    · next hempty =>
      obtain rfl := Option.some.inj ht
      refine h _ hsame (sizes_eq_zero ?_) (Function.update_self ..)
      change s.ethRing ⟨i,hi⟩=[]
      simpa [maxPktBurst] using hempty
    · next hne =>
      obtain rfl := Option.some.inj ht
      have hlen : (Function.update s.ethRing ⟨i,hi⟩ ((s.ethRing ⟨i,hi⟩).drop maxPktBurst)
        ⟨i,hi⟩).length=(s.ethRing ⟨i,hi⟩).length := congrFun hsame (.ethRing ⟨i,hi⟩)
      rw [Function.update_self,List.length_drop] at hlen
      refine absurd ?_ hne
      have hzero : (s.ethRing ⟨i,hi⟩).length=0 := by
        simp only [maxPktBurst] at hlen
        omega
      rw [List.length_eq_zero_iff.mp hzero]
      rfl

/-- From a queue of its own below q it gets to q, or finds packets before. -/
theorem climb_advances {i k : Nat} (hpc : s.ethTx c=.head i) (hq : q.val=i+k*n.ethTxCores)
    (hne : s.sizes (.ethRing q)≠0) : s.Advances := by
  have hlt := q.isLt
  induction k generalizing s i with
  | zero =>
    rw [Nat.zero_mul,Nat.add_zero] at hq
    subst hq
    exact dequeue_advances hpc hlt fun t _ hzero _ => absurd hzero hne
  | succ k ih =>
    refine dequeue_advances hpc (by omega) fun t hsame _ hpc' => ?_
    apply ih hpc'
    · rw [hq,Nat.succ_mul]
      omega
    · rw [hsame]
      exact hne

/-- From anywhere it gets behind the last queue, starts again and gets to q. -/
theorem round_advances {i k : Nat} (hpc : s.ethTx c=.head i) (hq : q.val=c.val+k*n.ethTxCores)
    (hne : s.sizes (.ethRing q)≠0) : s.Advances := by
  have hcores : 0 < n.ethTxCores := c.pos
  induction hd : n.cfg.ethTxQueues-i using Nat.strong_induction_on generalizing s i with
  | _ d ih =>
    by_cases hi : i < n.cfg.ethTxQueues
    · refine dequeue_advances hpc hi fun t hsame _ hpc' => ?_
      apply ih _ _ hpc' _ rfl
      · omega
      · rw [hsame]
        exact hne
    · refine .of_move (.again c) trivial (by simp [Move.act,step,again,hpc,hi])
        fun e t _ ht hsame => ?_
      simp only [Move.act,step,again,hpc] at ht
      rw [if_neg hi] at ht
      obtain rfl := Option.some.inj ht
      apply climb_advances (Function.update_self ..) hq
      rw [hsame]
      exact hne

omit [DecidableEq μ] in
theorem sizes_ethTx (h : (s.ethTx c).held=Function.update (fun _ => []) q pkts) :
    s.sizes (.ethTx c q)=pkts.length := by
  change ((s.ethTx c).held q).length=pkts.length
  rw [h,Function.update_self]

theorem free_advances (hpc : s.ethTx c=.free q pkts) (hne : pkts≠[]) : s.Advances := by
  refine .of_move (.freeOne c) trivial
    (by simp [Move.act,step,freeOne,hpc,List.getLast?_eq_some_getLast hne]) fun e t _ ht hsame => ?_
  have hlen : t.sizes (.ethTx c q)=pkts.dropLast.length := by
    simp only [Move.act,step,freeOne,hpc] at ht
    obtain ⟨m,-,rfl⟩ := Option.map_eq_some_iff.mp ht
    apply sizes_ethTx
    change (Function.update s.ethTx c _ c).held=_
    rw [Function.update_self,orHead_held _ _ _ rfl]
  have hpos := List.length_pos_iff.mpr hne
  rw [hsame,sizes_ethTx (by rw [hpc]; rfl),List.length_dropLast] at hlen
  omega

theorem burst_advances (hs : s.Tidy) (hne : s.sizes (.ethTx c q)≠0) : s.Advances := by
  have hpos := hs.ethTx c
  cases hpc : s.ethTx c with
  | head i =>
    refine absurd (sizes_eq_zero ?_) hne
    change (s.ethTx c).held q=[]
    rw [hpc]
    rfl
  | send q' pkts =>
    rw [hpc] at hpos
    have hlen : 1 ≤ pkts.length := List.length_pos_iff.mpr hpos.1
    refine .of_move (.txBurst c) Nat.zero_lt_one
      (by simp [Move.act,Answer.one,step,txBurst,hpc,hlen]) fun e t hw ht hsame => ?_
    obtain ⟨-,-,-,q'',pkts',-,hle,-,ho⟩ := txBurst_cases ht
    have hnone := ho.part_eq_nil (by simp) hsame
    have hnum : 0 < e.num := hw
    rw [List.take_eq_nil_iff,← List.length_eq_zero_iff] at hnone
    omega
  | unsent q' pkts =>
    rw [hpc] at hpos
    refine .of_move (.requeue c) trivial (by simp [Move.act,step,requeue,hpc])
      fun e t _ ht hsame => ?_
    have hstep := requeue_egress hpc ht
    obtain ⟨-,-,q'',pkts',hpc',ho⟩ := requeue_cases ht
    obtain ⟨rfl,rfl⟩ := EgressAt.unsent.inj (hpc.symm.trans hpc')
    have hnone := ho.part_eq_nil (by simp) hsame
    have hall : pkts.drop (room (s.ethRing q'))=pkts := by
      have hsplit := List.take_append_drop (room (s.ethRing q')) pkts
      rwa [hnone,List.nil_append] at hsplit
    apply free_advances (c:=c) (q:=q') _ hpos.1
    rw [hstep.ethTx,Function.update_self,hall,EgressAt.orHead,
      if_neg fun he => hpos.1 (List.isEmpty_iff.mp he)]
  | free q' pkts =>
    rw [hpc] at hpos
    exact free_advances hpc hpos.1

theorem ethRing_advances (hs : s.Tidy) (hcores : 0 < n.ethTxCores)
    (hne : s.sizes (.ethRing q)≠0) : s.Advances := by
  have hpos := hs.ethTx ⟨q.val%n.ethTxCores,Nat.mod_lt _ hcores⟩
  have hq : q.val=q.val%n.ethTxCores+q.val/n.ethTxCores*n.ethTxCores := by
    rw [Nat.mul_comm,Nat.mod_add_div]
  cases hpc : s.ethTx ⟨q.val%n.ethTxCores,Nat.mod_lt _ hcores⟩ with
  | head i => exact round_advances hpc hq hne
  | send q' pkts | unsent q' pkts | free q' pkts =>
    rw [hpc] at hpos
    apply burst_advances (c:=⟨q.val%n.ethTxCores,Nat.mod_lt _ hcores⟩) (q:=q') hs
    rw [sizes_ethTx (by rw [hpc]; rfl)]
    exact (List.length_pos_iff.mpr hpos.1).ne'

theorem nic_advances (hne : s.sizes (.nic q)≠0) : s.Advances := by
  cases hnic : s.nic q with
  | nil => exact absurd (sizes_eq_zero (k:=.nic q) hnic) hne
  | cons m rest =>
    refine .of_move (.nicDone q) trivial (by simp [Move.act,step,hnic]) fun e t _ ht hsame => ?_
    simp only [Move.act,step,hnic] at ht
    obtain rfl := Option.some.inj ht
    have hlen : (Function.update s.nic q rest q).length=(s.nic q).length :=
      congrFun hsame (.nic q)
    rw [Function.update_self,hnic,List.length_cons] at hlen
    omega

end

section
variable {m : μ} {batch : List (SlowMsg μ)}

omit [DecidableEq μ] in
theorem sizes_slow (s : Dataplane n μ) : s.sizes .slow=s.slow.held.length := rfl

theorem slowFree_advances (hpc : s.slow=.free m batch) : s.Advances := by
  refine .of_move .slowFree trivial (by simp [Move.act,step,hpc]) fun e t _ ht hsame => ?_
  simp only [Move.act,step,hpc] at ht
  obtain rfl := Option.some.inj ht
  have hlen := congrFun hsame .slow
  rw [sizes_slow,sizes_slow,hpc] at hlen
  exact absurd hlen (Nat.lt_succ_self _).ne

theorem slowEnqueue_advances {vid : Vid} (hpc : s.slow=.enqueue vid m batch) : s.Advances := by
  refine .of_move .slowEnqueue trivial ?_ fun e t _ ht hsame => ?_
  · simp only [Move.act,step,slowEnqueue,hpc]
    split
    · rfl
    · rfl
  · have hfree : t.slow=.free m batch := by
      simp only [Move.act,step,slowEnqueue,hpc] at ht
      split at ht
      · obtain rfl := Option.some.inj ht
        rfl
      · obtain rfl := Option.some.inj ht
        rfl
    exact slowFree_advances hfree

/-- The slow path gets to the next request, in its batch or in the ring. The measure counts a
message in the ring twice, since it has to be taken from there first. -/
theorem slowNext_advances (hpc : s.slow=.next batch)
    (hne : s.sizes .slow≠0 ∨ s.sizes .slowRing≠0) : s.Advances := by
  induction hd : 2*s.slowRing.length+batch.length using Nat.strong_induction_on
    generalizing s batch with
  | _ d ih =>
    cases batch with
    | nil =>
      have hring : s.sizes .slowRing≠0 := by
        apply hne.resolve_left
        rw [sizes_slow,hpc]
        exact not_not.mpr rfl
      have hlen : 0 < s.slowRing.length := by
        apply List.length_pos_iff.mpr
        intro he
        refine hring (sizes_eq_zero ?_)
        change arpMbufs s.slowRing=[]
        rw [he]
        rfl
      refine .of_move .slowDequeue trivial (by simp [Move.act,step,hpc]) fun e t _ ht hsame => ?_
      simp only [Move.act,step,hpc] at ht
      obtain rfl := Option.some.inj ht
      refine ih _ ?_ rfl (by rw [hsame]; exact hne) rfl
      rw [← hd]
      simp only [List.length_drop,List.length_take,List.length_nil,maxPktBurst]
      omega
    | cons x batch =>
      refine .of_move .slowNext trivial ?_ fun e t _ ht hsame => ?_
      · simp only [Move.act,step,slowNext,hpc]
        split
        · rfl
        · split
          · rfl
          · rfl
      · have hne' : t.sizes .slow≠0 ∨ t.sizes .slowRing≠0 := by
          rw [hsame]
          exact hne
        simp only [Move.act,step,slowNext,hpc] at ht
        split at ht
        · obtain rfl := Option.some.inj ht
          refine ih _ ?_ rfl hne' rfl
          rw [← hd,List.length_cons]
          exact Nat.lt_succ_self _
        · next hreason =>
          split at ht
          · obtain rfl := Option.some.inj ht
            have hlen := congrFun hsame .slow
            rw [sizes_slow,sizes_slow,hpc] at hlen
            change (arpMbufs batch).length=(arpMbufs (x::batch)).length at hlen
            rw [arpMbufs_cons_length,if_pos hreason] at hlen
            omega
          · cases hsrc : x.src with
            | vhost vid =>
              simp only [hsrc] at ht
              obtain rfl := Option.some.inj ht
              exact slowEnqueue_advances rfl
            | eth queue =>
              simp only [hsrc] at ht
              obtain rfl := Option.some.inj ht
              exact slowFree_advances rfl

theorem slowpath_advances (hne : s.sizes .slow≠0 ∨ s.sizes .slowRing≠0) : s.Advances := by
  cases hpc : s.slow with
  | next batch => exact slowNext_advances hpc hne
  | enqueue vid m batch => exact slowEnqueue_advances hpc
  | free m batch => exact slowFree_advances hpc

end

/-- As long as an mbuf is on its way, mbufs can be made to change hands. -/
theorem advances_of_not_idle (hs : s.Orderly) (hv : 0 < n.cfg.vhostTxCores) (he : 0 < n.ethTxCores)
    (h : ¬s.Idle) : s.Advances := by
  unfold Idle at h
  push Not at h
  obtain ⟨k,hpool,hlost,hheld⟩ := h
  have hne : s.sizes k≠0 := (List.length_pos_iff.mpr hheld).ne'
  cases k with
  | pool => exact absurd rfl hpool
  | lost => exact absurd rfl hlost
  | vmRing v => exact tx_advances (c:=⟨0,hv⟩) hs (.inr hne)
  | ethRing q => exact ethRing_advances hs.tidy he hne
  | nic q => exact nic_advances hne
  | slowRing => exact slowpath_advances (.inr hne)
  | rx c r => exact rx_advances hs.tidy hne
  | tx c v => exact tx_advances hs (.inl hne)
  | ethTx c q => exact burst_advances hs.tidy hne
  | slow => exact slowpath_advances (.inl hne)

theorem working_pays : Pays (step (n:=n) (μ:=μ)) Working Orderly work sizes where
  inv := fun hs hw h => hs.step hw.oneConsumer h
  pay := fun hs hw h => step_paid hs hw h

/-- The dataplane neither deadlocks nor keeps mbufs in motion for ever. From every state it can
get into with vhost_tx cores that have no VM in common, in which anything may be in any ring and
any thread anywhere: without new packets, and with a NIC that takes something of each burst, mbufs
change hands at most `work` times, in whatever order the threads run; and the threads can be run
so that all mbufs end up free or lost, whatever the VMs, the NIC, the clock and the rings answer on
the way. -/
theorem dataplane_drains (hv : 0 < n.cfg.vhostTxCores) (he : 0 < n.ethTxCores) {pool : List μ}
    {mem : μ → Data} (h : Reaches step OneConsumer (init n pool mem) s) :
    (∀ as,Meets step Working s as → changes step sizes s as ≤ s.work) ∧
      Forces step Working Move.act Idle s := by
  have hs : s.Orderly := h.invariant (orderly_init pool mem) (fun hu hg ht => hu.step hg ht)
  constructor
  · intro as hm
    exact working_pays.changes_le hs as hm
  · apply working_pays.forces _ hs
    intro u hu hidle
    exact advances_of_not_idle hu hv he hidle

/-- Two frames of VM 0 are in the arrays of their thread, one for VM 1 and one for the NIC. -/
theorem dataplane_drains_relayBurst : ∃ s : Dataplane relayNode Nat,
    Reaches step OneConsumer (init relayNode [7,8] fun _ _ => 0) s ∧ s.pool=[] ∧
    (∀ as,Meets step Working s as → changes step sizes s as ≤ s.work) ∧
      Forces step Working Move.act Idle s := by
  obtain ⟨s,hs,hpool⟩ := exists_reaches_of_guardedRun (relayRun.take 1)
    (fun s : Dataplane relayNode Nat => s.pool) (b:=[])
    (show (guardedRun step OneConsumer (init relayNode [7,8] fun _ _ => 0) (relayRun.take 1)).map _=_
      by decide +kernel)
  exact ⟨s,hs,hpool,dataplane_drains (by decide) (by decide) hs⟩

end Dataplane

end Umanet
