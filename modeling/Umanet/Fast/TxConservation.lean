import Umanet.Framework.Run
import Umanet.Fast.VhostTx

namespace Umanet

open Framework

/-- A call of rte_vhost_enqueue_burst: the VM's backpressure record and the clock at the call. -/
structure TxOffer where
  bp : VmBp
  time : Nat

/-- A vhost_tx core with its rings and the clock, and what it has dequeued, offered to the
VMs and freed so far, per vid and in order. -/
structure TxRun (α : Type) where
  core : TxCore α
  rings : Vid → List α
  clock : Nat
  dequeued : Vid → List α
  offered : Vid → List α
  freed : Vid → List α
  log : List TxOffer

/-- The clock is read at `start`, before the deadline test, and at `now`, for a new
deadline; the VM is offered its packets at `time`, in between. -/
inductive TxRunAct (α : Type)
  | others (rings : Vid → List α)
  | load (plan : List Vid)
  | visit (start time now : Nat) (ret : Int)
  | send (time now : Nat) (ret : Int)

variable {α : Type}

def TxCore.current (core : TxCore α) : Option Vid := core.todo.head?

theorem vhostSend_blocked (now : Nat) (ret : Int) (pkts : List α) {slot : TxSlot α}
    (hr : slot.retry=[]) (hn : (vhostSend now ret pkts slot).slot.retry≠[]) :
    (vhostSend now ret pkts slot).slot.bp.blocked=true := by
  unfold vhostSend at hn ⊢
  dsimp only at hn ⊢
  split
  · rfl
  · next hlt =>
    rw [if_neg hlt] at hn
    exact absurd hr hn

/-- A VM that is not skipped at one clock reading is not blocked at a later one. -/
theorem TxSlot.not_blocked {slot : TxSlot α} {start time : Nat} (h : slot.skips start=false)
    (hle : start ≤ time) : ¬(slot.bp.blocked=true ∧ time < slot.bp.blockedUntil) := by
  rintro ⟨hb,hlt⟩
  have hlt' : start < slot.bp.blockedUntil := by omega
  simp [skips,hb,hlt'] at h

theorem TxSlot.skips_of_le {slot : TxSlot α} {start time : Nat} (h : slot.skips start=false)
    (hle : start ≤ time) : slot.skips time=false := by
  rw [skips,Bool.and_eq_false_iff,decide_eq_false_iff_not]
  by_cases hb : slot.bp.blocked=true
  · exact Or.inr fun hlt => not_blocked h hle ⟨hb,hlt⟩
  · exact Or.inl (by simpa using hb)

namespace TxRun

def init : TxRun α := ⟨.init,fun _ => [],0,fun _ => [],fun _ => [],fun _ => [],[]⟩

/-- The entry of the log for a step at the given time, if it offers packets. -/
def logged (core : TxCore α) (o : TxOut α) (time : Nat) : List TxOffer :=
  match core.current with
  | some vid => if (o.offered vid).isEmpty then [] else [⟨(core.slot vid).bp,time⟩]
  | none => []

/-- A step of the core that ends at clock `now`. What it holds at the end of a visit is
what it has dequeued in it. -/
def record (s : TxRun α) (time now : Nat) (deq : Vid → List α) (o : TxOut α) : TxRun α where
  core := o.core
  rings := o.rings
  clock := now
  dequeued v := s.dequeued v++deq v
  offered v := s.offered v++o.offered v
  freed v := s.freed v++o.freed v
  log := s.log++logged s.core o time

/-- Producers and the other users of the rings may do anything to them between two steps. -/
def step (s : TxRun α) : TxRunAct α → Option (TxRun α)
  | .others rings => some {s with rings:=rings}
  | .load plan => (s.core.step plan s.rings .load).map (s.record s.clock s.clock fun _ => [])
  | .visit start time now ret =>
    if s.clock ≤ start ∧ start ≤ time ∧ time ≤ now then
      (s.core.step [] s.rings (.visit start now ret)).map fun o =>
        s.record time now o.core.held o
    else none
  | .send time now ret =>
    if s.clock ≤ time ∧ time ≤ now then
      (s.core.step [] s.rings (.send now ret)).map (s.record time now fun _ => [])
    else none

/-- The ledger of a core for one vid. -/
structure Ledger [DecidableEq α] (s : TxRun α) (v : Vid) : Prop where
  size : (s.core.line v).length ≤ maxPktBurst
  blocked : (s.core.slot v).retry≠[] → (s.core.slot v).bp.blocked=true
  single : s.core.held v≠[] → (s.core.slot v).retry=[]
  kept : s.freed v++s.core.line v=s.dequeued v
  offers : ∀ m,(s.offered v).count m ≤ 2*(s.freed v).count m+(s.core.slot v).retry.count m

structure Inv [DecidableEq α] (s : TxRun α) : Prop where
  ledger : ∀ v,s.Ledger v
  /-- The test that let the core dequeue is still good when it sends. -/
  clear : ∀ vid pkts todo,s.core.pc=.send vid pkts todo →
    pkts≠[] ∧ (s.core.slot vid).skips s.clock=false
  log : ∀ o∈s.log,¬(o.bp.blocked=true ∧ o.time < o.bp.blockedUntil)

theorem mem_log_of_quiet {s : TxRun α} {time now : Nat} {deq : Vid → List α} {core : TxCore α}
    {rings : Vid → List α} {o : TxOffer}
    (ho : o∈(s.record time now deq (core.quiet rings)).log) : o∈s.log := by
  have hnil : logged s.core (core.quiet rings) time=[] := by
    unfold logged
    cases s.core.current <;> rfl
  change o∈s.log++logged s.core (core.quiet rings) time at ho
  rwa [hnil,List.append_nil] at ho

section
variable [DecidableEq α] {s t : TxRun α} {v : Vid}

theorem init_inv : Inv (init : TxRun α) where
  ledger v := ⟨Nat.zero_le _,fun hn => absurd rfl hn,fun hn => absurd rfl hn,rfl,fun _ => le_rfl⟩
  clear vid pkts todo hpc := by cases hpc
  log o ho := absurd ho List.not_mem_nil

theorem Ledger.frame (h : s.Ledger v) (hslot : t.core.slot v=s.core.slot v)
    (hheld : t.core.held v=s.core.held v) (hd : t.dequeued v=s.dequeued v)
    (ho : t.offered v=s.offered v) (hf : t.freed v=s.freed v) : t.Ledger v := by
  have hline : t.core.line v=s.core.line v := by rw [TxCore.line,TxCore.line,hslot,hheld]
  refine ⟨hline ▸ h.size,hslot ▸ h.blocked,?_,?_,?_⟩
  · rw [hslot,hheld]
    exact h.single
  · rw [hline,hd,hf]
    exact h.kept
  · rw [hslot,ho,hf]
    exact h.offers

theorem Ledger.dequeue (h : s.Ledger v) (hslot : t.core.slot v=s.core.slot v)
    (hr : (s.core.slot v).retry=[]) (hheld : s.core.held v=[])
    (hsize : (t.core.held v).length ≤ maxPktBurst)
    (hd : t.dequeued v=s.dequeued v++t.core.held v) (ho : t.offered v=s.offered v)
    (hf : t.freed v=s.freed v) : t.Ledger v := by
  have hnil : s.core.line v=[] := by rw [TxCore.line,hr,hheld,List.append_nil]
  have hline : t.core.line v=t.core.held v := by rw [TxCore.line,hslot,hr,List.nil_append]
  have hkept := h.kept
  rw [hnil,List.append_nil] at hkept
  refine ⟨hline ▸ hsize,hslot ▸ h.blocked,fun _ => hslot ▸ hr,?_,?_⟩
  · rw [hline,hd,hf,hkept]
  · rw [hslot,ho,hf]
    exact h.offers

/-- An offer of all packets the core has for a VM: some are freed, the rest is retained,
and after a second offer nothing is. -/
theorem Ledger.offer (h : s.Ledger v) {r : TxResult α} (hslot : t.core.slot v=r.slot)
    (hheld : t.core.held v=[]) (hd : t.dequeued v=s.dequeued v)
    (ho : t.offered v=s.offered v++s.core.line v) (hf : t.freed v=s.freed v++r.freed)
    (hsplit : r.freed++r.slot.retry=s.core.line v)
    (hlast : (s.core.slot v).retry=[] ∨ r.slot.retry=[])
    (hblocked : r.slot.retry≠[] → r.slot.bp.blocked=true) : t.Ledger v := by
  have hline : t.core.line v=r.slot.retry := by rw [TxCore.line,hslot,hheld,List.append_nil]
  have hsize := h.size
  refine ⟨?_,hslot ▸ hblocked,fun hn => absurd hheld hn,?_,fun m => ?_⟩
  · rw [← hsplit,List.length_append] at hsize
    rw [hline]
    omega
  · rw [hline,hd,hf,List.append_assoc,hsplit]
    exact h.kept
  · have hoff := h.offers m
    have hcount := congrArg (List.count m) hsplit
    rw [List.count_append] at hcount
    rw [hslot,ho,hf,List.count_append,List.count_append]
    rcases hlast with hn | hn
    · rw [hn,List.count_nil] at hoff
      omega
    · have hle : (s.core.slot v).retry.count m ≤ (s.core.line v).count m := by
        rw [TxCore.line,List.count_append]
        omega
      rw [hn,List.count_nil] at hcount ⊢
      omega

theorem Inv.pass (h : Inv s) {l l' : List Vid} (hpc : s.core.pc=.loop l) (rings : Vid → List α)
    (time now : Nat) (deq : Vid → List α) (hdeq : ∀ v,deq v=[]) :
    Inv (s.record time now deq (TxCore.quiet {s.core with pc:=.loop l'} rings)) := by
  have hheld : ∀ v,s.core.held v=[] := fun v => by rw [TxCore.held,hpc]
  refine ⟨fun v => ?_,fun _ _ _ hp => (by cases hp),fun o ho => ?_⟩
  · refine (h.ledger v).frame rfl (hheld v).symm ?_ (List.append_nil _) (List.append_nil _)
    change s.dequeued v++deq v=s.dequeued v
    rw [hdeq v,List.append_nil]
  · exact h.log o (mem_log_of_quiet ho)

/-- The offer of a step is of all packets the core has for the VM it is busy with, at a time
when the VM is not to be skipped. -/
theorem Inv.offer (h : Inv s) {vid : Vid} {r : TxResult α} {l : List Vid} {time now start : Nat}
    (hcur : s.core.current=some vid) (hheld : ∀ u≠vid,s.core.held u=[])
    (hskip : (s.core.slot vid).skips start=false) (hle : start ≤ time)
    (hsplit : r.freed++r.slot.retry=s.core.line vid)
    (hlast : (s.core.slot vid).retry=[] ∨ r.slot.retry=[])
    (hblocked : r.slot.retry≠[] → r.slot.bp.blocked=true) (deq : Vid → List α)
    (hdeq : ∀ v,deq v=[]) :
    Inv (s.record time now deq (s.core.offer s.rings vid (s.core.line vid) r l)) := by
  have hd (v : Vid) : s.dequeued v++deq v=s.dequeued v := by rw [hdeq v,List.append_nil]
  refine ⟨fun v => ?_,fun _ _ _ hp => (by cases hp),fun o ho => ?_⟩
  · by_cases hv : v=vid
    · subst hv
      refine (h.ledger v).offer (r:=r) (Function.update_self ..) rfl (hd v) ?_ ?_ hsplit hlast
        hblocked
      · exact congrArg (s.offered v++·) (only_self ..)
      · exact congrArg (s.freed v++·) (only_self ..)
    · refine (h.ledger v).frame (Function.update_of_ne hv ..) (hheld v hv).symm (hd v) ?_ ?_
      · exact (congrArg (s.offered v++·) (only_of_ne hv _)).trans (List.append_nil _)
      · exact (congrArg (s.freed v++·) (only_of_ne hv _)).trans (List.append_nil _)
  · rcases List.mem_append.mp ho with ho | ho
    · exact h.log o ho
    · rw [logged,hcur] at ho
      dsimp only at ho
      split at ho
      · exact absurd ho List.not_mem_nil
      · rw [List.mem_singleton] at ho
        subst ho
        exact TxSlot.not_blocked hskip hle

theorem Inv.visit (h : Inv s) {start time now : Nat} {ret : Int} {vid : Vid} {todo : List Vid}
    (hpc : s.core.pc=.loop (vid::todo)) (hstart : start ≤ time) (hnow : time ≤ now) :
    Inv (s.record time now (s.core.serve s.rings start now ret vid todo).core.held
      (s.core.serve s.rings start now ret vid todo)) := by
  have hheld : ∀ v,s.core.held v=[] := fun v => by rw [TxCore.held,hpc]
  rcases s.core.serve_cases s.rings start now ret vid todo with he | ⟨hskip,hr,hne,he⟩ | ⟨hskip,he⟩
  · rw [he]
    exact h.pass hpc s.rings time now _ fun _ => rfl
  · rw [he]
    refine ⟨fun v => ?_,fun u pkts l hp => ?_,fun o ho => ?_⟩
    · by_cases hv : v=vid
      · subst hv
        refine (h.ledger v).dequeue rfl hr (hheld v) ?_ rfl (List.append_nil _) (List.append_nil _)
        change (only v _ v).length ≤ maxPktBurst
        rw [only_self,List.length_take]
        exact Nat.min_le_left ..
      · refine (h.ledger v).frame rfl ((only_of_ne hv _).trans (hheld v).symm) ?_
          (List.append_nil _) (List.append_nil _)
        exact (congrArg (s.dequeued v++·) (only_of_ne hv _)).trans (List.append_nil _)
    · injection hp with hu hk
      subst hu
      exact ⟨fun hn => hne (hk.trans hn),TxSlot.skips_of_le hskip (le_trans hstart hnow)⟩
    · exact h.log o (mem_log_of_quiet ho)
  · have hline : s.core.line vid=(s.core.slot vid).retry := by
      rw [TxCore.line,hheld vid,List.append_nil]
    rw [he,← hline]
    refine h.offer ?_ (fun u _ => hheld u) hskip hstart ?_ (Or.inr (vhostResend_retry ..)) ?_ _
      fun _ => rfl
    · rw [TxCore.current,TxCore.todo,hpc]
      rfl
    · rw [vhostResend_freed,vhostResend_retry,hline,List.append_nil]
    · intro hn
      exact absurd (vhostResend_retry ..) hn

theorem step_inv {a : TxRunAct α} (h : Inv s) (ht : s.step a=some t) : Inv t := by
  cases a with
  | others rings =>
    have ht' := Option.some.inj ht
    subst ht'
    exact ⟨fun v => (h.ledger v).frame rfl rfl rfl rfl rfl,h.clear,h.log⟩
  | load plan =>
    obtain ⟨o,ho,rfl⟩ := Option.map_eq_some_iff.mp ht
    simp only [TxCore.step] at ho
    split at ho
    · next hpc =>
      have ho' := Option.some.inj ho
      subst ho'
      exact h.pass hpc _ _ _ _ fun _ => rfl
    · cases ho
  | visit start time now ret =>
    simp only [step] at ht
    split at ht
    · next hclock =>
      obtain ⟨o,ho,rfl⟩ := Option.map_eq_some_iff.mp ht
      simp only [TxCore.step] at ho
      split at ho
      · next hpc =>
        have ho' := Option.some.inj ho
        subst ho'
        exact h.visit hpc hclock.2.1 hclock.2.2
      · cases ho
    · cases ht
  | send time now ret =>
    simp only [step] at ht
    split at ht
    · next hclock =>
      obtain ⟨o,ho,rfl⟩ := Option.map_eq_some_iff.mp ht
      simp only [TxCore.step] at ho
      split at ho
      · next vid pkts todo hpc =>
        have ho' := Option.some.inj ho
        subst ho'
        have hheld : s.core.held=only vid pkts := by rw [TxCore.held,hpc]
        obtain ⟨hne,hskip⟩ := h.clear vid pkts todo hpc
        have hr := (h.ledger vid).single (by rw [hheld,only_self]; exact hne)
        have hline : s.core.line vid=pkts := by
          rw [TxCore.line,hr,hheld,only_self,List.nil_append]
        rw [← hline]
        refine h.offer ?_ (fun u hu => ?_) hskip hclock.1 ?_ (Or.inl hr)
          (vhostSend_blocked _ _ _ hr) _ fun _ => rfl
        · rw [TxCore.current,TxCore.todo,hpc]
          rfl
        · rw [hheld,only_of_ne hu]
        · rw [vhostSend_freed,vhostSend_split _ _ _ _ hr]
      · cases ho
    · cases ht

theorem reaches_inv (h : Reaches step anyStep (init : TxRun α) s) : Inv s :=
  h.invariant init_inv fun hi _ ht => step_inv hi ht

end

/-- The custody of a core's packets between two steps of its loop. Packets are told apart
by their mbuf, which may come back once it has been freed. -/
structure Conserved [DecidableEq α] (s : TxRun α) : Prop where
  size : ∀ v,(s.core.slot v).retry.length ≤ maxPktBurst
  blocked : ∀ v,0 < (s.core.slot v).retry.length → (s.core.slot v).bp.blocked=true
  kept : ∀ v,s.freed v++(s.core.slot v).retry=s.dequeued v
  once : ∀ v m,(s.dequeued v).count m=1 →
    (s.freed v).count m=1 ∧ m∉(s.core.slot v).retry ∨
      m∉s.freed v ∧ (s.core.slot v).retry.count m=1
  offers : ∀ v m,(s.offered v).count m ≤ 2*(s.freed v).count m+(s.core.slot v).retry.count m
  twice : ∀ v m,(s.dequeued v).count m=1 →
    (s.offered v).count m ≤ 2 ∧ ((s.offered v).count m=2 → (s.freed v).count m=1)
  paced : ∀ o∈s.log,¬(o.bp.blocked=true ∧ o.time < o.bp.blockedUntil)

/-- In every run of vhost_tx_loop, with any plans, ring contents, return codes and clock. -/
theorem conserved_at_loop_heads [DecidableEq α] {s : TxRun α}
    (h : Reaches step anyStep init s) {todo : List Vid} (hpc : s.core.pc=.loop todo) :
    s.Conserved := by
  have hi := reaches_inv h
  have hline (v : Vid) : s.core.line v=(s.core.slot v).retry := by
    rw [TxCore.line,TxCore.held,hpc]
    exact List.append_nil _
  have hkept (v : Vid) : s.freed v++(s.core.slot v).retry=s.dequeued v :=
    hline v ▸ (hi.ledger v).kept
  have hcount (v : Vid) (m : α) :
      (s.freed v).count m+(s.core.slot v).retry.count m=(s.dequeued v).count m := by
    rw [← hkept v,List.count_append]
  refine ⟨fun v => hline v ▸ (hi.ledger v).size,fun v hv => ?_,hkept,fun v m hm => ?_,
    fun v => (hi.ledger v).offers,fun v m hm => ?_,hi.log⟩
  · exact (hi.ledger v).blocked (List.ne_nil_of_length_pos hv)
  · have hc := hcount v m
    rw [← List.count_eq_zero,← List.count_eq_zero]
    omega
  · have hc := hcount v m
    have ho := (hi.ledger v).offers m
    omega

/-- A burst of which the VM takes one packet, a visit before the deadline, and the second
offer. -/
def resent : List (TxRunAct Nat) :=
  [.others fun v => if v=0 then [10,11,12] else [],.load [0],.visit 0 0 1 0,.send 2 3 1,.load [0],
    .visit 5 5 5 0,.load [0],.visit 200000 200001 200002 1]

theorem resent_conserved : ∃ s : TxRun Nat,Reaches step anyStep init s ∧ s.core.pc=.loop [] ∧
    s.offered 0=[10,11,12,11,12] ∧ s.freed 0=[10,11,12] ∧ s.Conserved := by
  have hrun : ∃ s,guardedRun step anyStep init resent=some s ∧ s.core.pc=.loop [] ∧
      s.offered 0=[10,11,12,11,12] ∧ s.freed 0=[10,11,12] := ⟨_,rfl,rfl,rfl,rfl⟩
  obtain ⟨s,hs,hpc,hoff,hfreed⟩ := hrun
  have hreach := guardedRun_reaches resent hs
  exact ⟨s,hreach,hpc,hoff,hfreed,conserved_at_loop_heads hreach hpc⟩

end TxRun

end Umanet
