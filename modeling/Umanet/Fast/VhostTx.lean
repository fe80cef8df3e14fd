import Umanet.Vhost.State

namespace Umanet

/-- `BACKOFF_TSC` -/
def backoffTsc : Nat := 100000

/-- `struct vm_bp`: `blocked` is the state VM_BLOCKED_TX, the deadline a uint64. -/
structure VmBp where
  blocked : Bool
  blockedUntil : Nat

/-- The part of `struct vhost_tx_ctx` that belongs to one vid: the first `retry_cnts`
entries of `retry_pkts`, and the backpressure record. -/
structure TxSlot (α : Type) where
  retry : List α
  bp : VmBp

/-- The context as init_dataplane_ctxs leaves it. -/
def TxSlot.init {α : Type} : TxSlot α := ⟨[],⟨false,0⟩⟩

/-- What vhost_send and vhost_resend leave: the slot, the packets the VM got, and the
mbufs freed. -/
structure TxResult (α : Type) where
  slot : TxSlot α
  delivered : List α
  freed : List α

variable {α : Type}

def TxSlot.skips (slot : TxSlot α) (now : Nat) : Bool :=
  slot.bp.blocked && decide (now < slot.bp.blockedUntil)

def VmBp.block (now : Nat) : VmBp := ⟨true,(now+backoffTsc)%2^64⟩

/-- vhost_send; `ret` is what rte_vhost_enqueue_burst returns, negative on error. The
unsent tail becomes the retry buffer. -/
def vhostSend (now : Nat) (ret : Int) (pkts : List α) (slot : TxSlot α) : TxResult α :=
  let ret := ret.toNat
  if ret < pkts.length then ⟨⟨pkts.drop ret,.block now⟩,pkts.take ret,pkts.take ret⟩
  else ⟨⟨slot.retry,{slot.bp with blocked:=false}⟩,pkts.take ret,pkts.take ret⟩

/-- vhost_resend: one more try, then everything is freed. -/
def vhostResend (now : Nat) (ret : Int) (slot : TxSlot α) : TxResult α :=
  let ret := ret.toNat
  if ret < slot.retry.length then ⟨⟨[],.block now⟩,slot.retry.take ret,slot.retry⟩
  else ⟨⟨[],{slot.bp with blocked:=false}⟩,slot.retry.take ret,slot.retry⟩

theorem vhostResend_freed (now : Nat) (ret : Int) (slot : TxSlot α) :
    (vhostResend now ret slot).freed=slot.retry := by
  simp only [vhostResend]
  split <;> rfl

/-- With an empty retry buffer a send splits its packets between VM and buffer. -/
theorem vhostSend_split (now : Nat) (ret : Int) (pkts : List α) (slot : TxSlot α)
    (h : slot.retry=[]) : (vhostSend now ret pkts slot).delivered++
      (vhostSend now ret pkts slot).slot.retry=pkts := by
  unfold vhostSend
  by_cases hlt : ret.toNat < pkts.length
  · simp only [if_pos hlt]
    exact List.take_append_drop ret.toNat pkts
  · simp only [if_neg hlt,h,List.append_nil]
    exact List.take_of_length_le (by omega)

theorem vhostSend_freed (now : Nat) (ret : Int) (pkts : List α) (slot : TxSlot α) :
    (vhostSend now ret pkts slot).freed=(vhostSend now ret pkts slot).delivered := by
  simp only [vhostSend]
  split <;> rfl

theorem vhostResend_delivered (now : Nat) (ret : Int) (slot : TxSlot α) :
    (vhostResend now ret slot).delivered=slot.retry.take ret.toNat := by
  simp only [vhostResend]
  split <;> rfl

theorem vhostResend_retry (now : Nat) (ret : Int) (slot : TxSlot α) :
    (vhostResend now ret slot).slot.retry=[] := by
  simp only [vhostResend]
  split <;> rfl

/-- Where a vhost_tx core stands in its loop over the plan it loaded: before the next
vid, or between rte_ring_dequeue_burst and vhost_send. -/
inductive TxPc (α : Type)
  | loop (todo : List Vid)
  | send (vid : Vid) (pkts : List α) (todo : List Vid)

/-- `struct vhost_tx_ctx` with the core's position. -/
structure TxCore (α : Type) where
  pc : TxPc α
  slot : Vid → TxSlot α

def TxCore.init : TxCore α := ⟨.loop [],fun _ => .init⟩

/-- Clock readings and return codes are inputs of a step: `start` is the reading before
the test, `now` the one that sets a deadline. -/
inductive TxAct
  | load
  | visit (start now : Nat) (ret : Int)
  | send (now : Nat) (ret : Int)

/-- A step's core and rings, and per vid the packets passed to rte_vhost_enqueue_burst,
those of them that the VM got, and those freed. -/
structure TxOut (α : Type) where
  core : TxCore α
  rings : Vid → List α
  offered : Vid → List α
  delivered : Vid → List α
  freed : Vid → List α

def only (vid : Vid) (l : List α) : Vid → List α := Function.update (fun _ => []) vid l

namespace TxCore

/-- A step that calls rte_vhost_enqueue_burst for no VM. -/
def quiet (core : TxCore α) (rings : Vid → List α) : TxOut α :=
  ⟨core,rings,fun _ => [],fun _ => [],fun _ => []⟩

def offer (core : TxCore α) (rings : Vid → List α) (vid : Vid) (pkts : List α)
    (r : TxResult α) (todo : List Vid) : TxOut α :=
  ⟨⟨.loop todo,Function.update core.slot vid r.slot⟩,rings,only vid pkts,only vid r.delivered,
    only vid r.freed⟩

def serve (core : TxCore α) (rings : Vid → List α) (start now : Nat) (ret : Int) (vid : Vid)
    (todo : List Vid) : TxOut α :=
  if (core.slot vid).skips start then quiet {core with pc:=.loop todo} rings
  else if (core.slot vid).retry.isEmpty then
    let pkts := (rings vid).take maxPktBurst
    let rings := Function.update rings vid ((rings vid).drop maxPktBurst)
    if pkts.isEmpty then quiet {core with pc:=.loop todo} rings
    else quiet {core with pc:=.send vid pkts todo} rings
  else core.offer rings vid (core.slot vid).retry (vhostResend now ret (core.slot vid)) todo

/-- One step of vhost_tx_loop; a finished round loads the plan anew. -/
def step (plan : List Vid) (rings : Vid → List α) (core : TxCore α) : TxAct → Option (TxOut α)
  | .load =>
    match core.pc with
    | .loop [] => some (quiet {core with pc:=.loop plan} rings)
    | _ => none
  | .visit start now ret =>
    match core.pc with
    | .loop (vid::todo) => some (core.serve rings start now ret vid todo)
    | _ => none
  | .send now ret =>
    match core.pc with
    | .send vid pkts todo =>
      some (core.offer rings vid pkts (vhostSend now ret pkts (core.slot vid)) todo)
    | _ => none

/-- The visit of a vid: the core passes on, dequeues a burst for a VM it retains nothing
for, or offers what it retains once more. -/
theorem serve_cases (core : TxCore α) (rings : Vid → List α) (start now : Nat) (ret : Int)
    (vid : Vid) (todo : List Vid) :
    core.serve rings start now ret vid todo=quiet {core with pc:=.loop todo} rings ∨
    ((core.slot vid).skips start=false ∧ (core.slot vid).retry=[] ∧
      (rings vid).take maxPktBurst≠[] ∧ core.serve rings start now ret vid todo=
        quiet {core with pc:=.send vid ((rings vid).take maxPktBurst) todo}
          (Function.update rings vid ((rings vid).drop maxPktBurst))) ∨
    ((core.slot vid).skips start=false ∧ core.serve rings start now ret vid todo=
      core.offer rings vid (core.slot vid).retry (vhostResend now ret (core.slot vid)) todo) := by
  unfold serve
  by_cases hskip : (core.slot vid).skips start=true
  · rw [if_pos hskip]
    exact Or.inl rfl
  · have hskip' : (core.slot vid).skips start=false := by simpa using hskip
    rw [if_neg hskip]
    by_cases hretry : (core.slot vid).retry.isEmpty=true
    · rw [if_pos hretry]
      dsimp only
      by_cases hempty : ((rings vid).take maxPktBurst).isEmpty=true
      · have hnil : rings vid=[] := by
          have h := List.isEmpty_iff.mp hempty
          simpa [maxPktBurst] using h
        have hsame : Function.update rings vid ((rings vid).drop maxPktBurst)=rings := by
          rw [hnil,List.drop_nil,← hnil,Function.update_eq_self]
        rw [if_pos hempty,hsame]
        exact Or.inl rfl
      · rw [if_neg hempty]
        have hne : (rings vid).take maxPktBurst≠[] := fun hn => hempty (List.isEmpty_iff.mpr hn)
        exact Or.inr (Or.inl ⟨hskip',List.isEmpty_iff.mp hretry,hne,rfl⟩)
    · rw [if_neg hretry]
      exact Or.inr (Or.inr ⟨hskip',rfl⟩)

def held (core : TxCore α) : Vid → List α :=
  match core.pc with
  | .loop _ => fun _ => []
  | .send vid pkts _ => only vid pkts

/-- The vids a core still has to visit, the one it is busy with included. -/
def todo (core : TxCore α) : List Vid :=
  match core.pc with
  | .loop todo => todo
  | .send vid _ todo => vid::todo

/-- A core's packets for a VM, in the order in which it offers them. -/
def line (core : TxCore α) (v : Vid) : List α := (core.slot v).retry++core.held v

/-- A core dequeues for a VM only when it retains nothing for it. -/
def Single (core : TxCore α) : Prop := ∀ v,core.held v≠[] → (core.slot v).retry=[]

theorem init_single : (init : TxCore α).Single := fun _ hn => absurd rfl hn

end TxCore

@[simp] theorem only_self (v : Vid) (l : List α) : only v l v=l := Function.update_self ..

theorem only_of_ne {v u : Vid} (h : u≠v) (l : List α) : only v l u=[] :=
  Function.update_of_ne h ..

/-- What a step does to the packets of a VM: of the core's packets and the ring's, in
this order, a front part is freed, some of it delivered before, and the rest stays. -/
structure TxStep (rings : Vid → List α) (core : TxCore α) (o : TxOut α) : Prop where
  kept : ∀ v,o.freed v++(o.core.line v++o.rings v)=core.line v++rings v
  taken : ∀ v,(o.delivered v).Sublist (o.freed v)
  offered : ∀ v,∀ x∈o.offered v,x∈core.line v
  single : o.core.Single

namespace TxStep

variable {rings rings' : Vid → List α} {core core' : TxCore α} {plan : List Vid} {o : TxOut α}

theorem line (h : TxStep rings core o) (v : Vid) :
    (o.delivered v++(o.core.line v++o.rings v)).Sublist (core.line v++rings v) := by
  rw [← h.kept v]
  exact (h.taken v).append (List.Sublist.refl _)

/-- Whatever a step frees, delivers or keeps for a VM the core or the ring had before. -/
theorem freed_mem (h : TxStep rings core o) {v : Vid} {x : α} (hx : x∈o.freed v) :
    x∈core.line v++rings v := by
  rw [← h.kept v]
  exact List.mem_append_left _ hx

theorem delivered_mem (h : TxStep rings core o) {v : Vid} {x : α} (hx : x∈o.delivered v) :
    x∈core.line v++rings v := h.freed_mem ((h.taken v).mem hx)

theorem stays_mem (h : TxStep rings core o) {v : Vid} {x : α}
    (hx : x∈o.core.line v++o.rings v) : x∈core.line v++rings v := by
  rw [← h.kept v]
  exact List.mem_append_right _ hx

/-- A step that only moves packets from the ring into the core's hands. -/
theorem of_quiet (hslot : core'.slot=core.slot)
    (hmove : ∀ v,core'.held v++rings' v=core.held v++rings v) (hsingle : core'.Single) :
    TxStep rings core (core'.quiet rings') := by
  have hline : ∀ v,core'.line v++rings' v=core.line v++rings v := by
    intro v
    rw [TxCore.line,TxCore.line,hslot,List.append_assoc,List.append_assoc,hmove v]
  exact ⟨hline,fun _ => List.Sublist.refl [],fun v x hx => by simp [TxCore.quiet] at hx,hsingle⟩

/-- A step that offers packets for one VM and holds nothing afterwards. -/
theorem of_offer {vid : Vid} {pkts : List α} {r : TxResult α} {todo : List Vid}
    (hheld : ∀ u,u≠vid → core.held u=[]) (hf : r.freed++r.slot.retry=core.line vid)
    (hd : r.delivered.Sublist r.freed) (hp : ∀ x∈pkts,x∈core.line vid) :
    TxStep rings core (core.offer rings vid pkts r todo) := by
  have hkept : ∀ u,only vid r.freed u++((Function.update core.slot vid r.slot u).retry++[]++rings u)=
      core.line u++rings u := by
    intro u
    rw [List.append_nil,← List.append_assoc]
    by_cases hu : u=vid
    · subst hu
      rw [only_self,Function.update_self,hf]
    · rw [only_of_ne hu,Function.update_of_ne hu,List.nil_append,TxCore.line,hheld u hu,
        List.append_nil]
  refine ⟨hkept,fun u => ?_,fun u x hx => ?_,fun u hn => absurd rfl hn⟩
  · change (only vid r.delivered u).Sublist (only vid r.freed u)
    by_cases hu : u=vid
    · subst hu
      rw [only_self,only_self]
      exact hd
    · rw [only_of_ne hu,only_of_ne hu]
  · change x∈only vid pkts u at hx
    by_cases hu : u=vid
    · subst hu
      rw [only_self] at hx
      exact hp x hx
    · rw [only_of_ne hu] at hx
      simp at hx

theorem serve {start now : Nat} {ret : Int} {vid : Vid} {todo : List Vid}
    (hpc : core.pc=.loop (vid::todo)) : TxStep rings core (core.serve rings start now ret vid todo) := by
  have hheld : ∀ u,core.held u=[] := fun u => by rw [TxCore.held,hpc]
  have hloop : ∀ v,(⟨.loop todo,core.slot⟩ : TxCore α).held v++rings v=core.held v++rings v :=
    fun v => by rw [hheld v]; rfl
  rcases core.serve_cases rings start now ret vid todo with he | ⟨-,hretry,-,he⟩ | ⟨-,he⟩
  · rw [he]
    exact of_quiet rfl hloop (fun v hn => absurd rfl hn)
  · rw [he]
    refine of_quiet rfl (fun v => ?_) (fun v hn => ?_)
    · rw [hheld v]
      change only vid ((rings vid).take maxPktBurst) v++_=_
      by_cases hv : v=vid
      · subst hv
        rw [only_self,Function.update_self,List.take_append_drop]
        rfl
      · rw [only_of_ne hv,Function.update_of_ne hv]
    · by_cases hv : v=vid
      · subst hv
        exact hretry
      · exact absurd (only_of_ne hv _) hn
  · rw [he]
    refine of_offer (fun u _ => hheld u) ?_ ?_ (fun x hx => List.mem_append_left _ hx)
    · rw [vhostResend_freed,vhostResend_retry,TxCore.line,hheld vid]
    · rw [vhostResend_freed,vhostResend_delivered]
      exact List.take_sublist _ _

theorem of_step {a : TxAct} (hs : core.Single) (h : core.step plan rings a=some o) :
    TxStep rings core o := by
  cases a with
  | load =>
    simp only [TxCore.step] at h
    split at h
    · rename_i hpc
      have h' := Option.some.inj h
      subst h'
      have hheld : ∀ v,core.held v=[] := fun v => by rw [TxCore.held,hpc]
      exact of_quiet rfl (fun v => by rw [hheld v]; rfl) (fun v hn => absurd rfl hn)
    · simp at h
  | visit start now ret =>
    simp only [TxCore.step] at h
    split at h
    · rename_i hpc
      have h' := Option.some.inj h
      subst h'
      exact serve hpc
    · simp at h
  | send now ret =>
    simp only [TxCore.step] at h
    split at h
    · rename_i vid pkts todo hpc
      have h' := Option.some.inj h
      subst h'
      have hheld : core.held=only vid pkts := by rw [TxCore.held,hpc]
      have hline : core.line vid=(core.slot vid).retry++pkts := by
        rw [TxCore.line,hheld,only_self]
      refine of_offer (fun u hu => by rw [hheld]; exact only_of_ne hu _) ?_
        (by rw [vhostSend_freed]) (fun x hx => ?_)
      · rw [hline,vhostSend_freed]
        by_cases hp : pkts=[]
        · subst hp
          simp [vhostSend]
        · have hretry := hs vid (by rw [hheld,only_self]; exact hp)
          rw [vhostSend_split now ret pkts _ hretry,hretry,List.nil_append]
      · rw [hline]
        exact List.mem_append_right _ hx
    · simp at h

end TxStep

/-- A core that has no business with a VM. -/
structure Foreign (b : Vid) (core : TxCore α) : Prop where
  todo : b∉core.todo
  line : core.line b=[]

namespace Foreign

variable {b : Vid} {rings : Vid → List α} {core : TxCore α} {plan : List Vid} {o : TxOut α}

theorem init (b : Vid) : Foreign b (TxCore.init : TxCore α) := ⟨List.not_mem_nil,rfl⟩

theorem retry (h : Foreign b core) : (core.slot b).retry=[] :=
  (List.append_eq_nil_iff.mp h.line).1

/-- The core after a step that is over with a vid, or has loaded its plan. -/
theorem of_loop (h : Foreign b core) {l : List Vid} (hl : b∉l) {slot : Vid → TxSlot α}
    (hs : slot b=core.slot b := by rfl) : Foreign b ⟨.loop l,slot⟩ := by
  refine ⟨hl,?_⟩
  change (slot b).retry++[]=[]
  rw [hs,h.retry,List.append_nil]

theorem of_offer (h : Foreign b core) (rings : Vid → List α) {vid : Vid} {l : List Vid}
    (hl : b∉vid::l) (pkts : List α) (r : TxResult α) : Foreign b (core.offer rings vid pkts r l).core ∧
      (core.offer rings vid pkts r l).delivered b=[] := by
  have hne : b≠vid := List.ne_of_not_mem_cons hl
  refine ⟨h.of_loop (List.not_mem_of_not_mem_cons hl) (Function.update_of_ne hne ..),?_⟩
  exact only_of_ne hne _

theorem serve (h : Foreign b core) {start now : Nat} {ret : Int} {vid : Vid} {l : List Vid}
    (hl : b∉vid::l) : Foreign b (core.serve rings start now ret vid l).core ∧
      (core.serve rings start now ret vid l).rings b=rings b ∧
      (core.serve rings start now ret vid l).delivered b=[] := by
  have hne : b≠vid := List.ne_of_not_mem_cons hl
  have hl' : b∉l := List.not_mem_of_not_mem_cons hl
  rcases core.serve_cases rings start now ret vid l with he | ⟨-,-,-,he⟩ | ⟨-,he⟩
  · rw [he]
    exact ⟨h.of_loop hl',rfl,rfl⟩
  · rw [he]
    refine ⟨⟨hl,?_⟩,Function.update_of_ne hne ..,rfl⟩
    change (core.slot b).retry++only vid _ b=[]
    rw [h.retry,only_of_ne hne,List.append_nil]
  · have ho := h.of_offer rings hl (core.slot vid).retry
      (vhostResend now ret (core.slot vid))
    rw [he]
    exact ⟨ho.1,rfl,ho.2⟩

/-- Without the VM in its plan the core stays away from it and its ring. -/
theorem step {a : TxAct} (h : Foreign b core) (hb : b∉plan)
    (ho : core.step plan rings a=some o) :
    Foreign b o.core ∧ o.rings b=rings b ∧ o.delivered b=[] := by
  have htodo := h.todo
  cases a with
  | load =>
    simp only [TxCore.step] at ho
    split at ho
    · have ho' := Option.some.inj ho
      subst ho'
      exact ⟨h.of_loop hb,rfl,rfl⟩
    · simp at ho
  | visit start now ret =>
    simp only [TxCore.step] at ho
    split at ho
    · rename_i hpc
      have ho' := Option.some.inj ho
      subst ho'
      rw [TxCore.todo,hpc] at htodo
      exact h.serve htodo
    · simp at ho
  | send now ret =>
    simp only [TxCore.step] at ho
    split at ho
    · rename_i vid pkts todo hpc
      have ho' := Option.some.inj ho
      subst ho'
      rw [TxCore.todo,hpc] at htodo
      have hoff := h.of_offer rings htodo pkts (vhostSend now ret pkts (core.slot vid))
      exact ⟨hoff.1,rfl,hoff.2⟩
    · simp at ho

end Foreign

end Umanet
