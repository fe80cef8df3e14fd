import Umanet.Framework.Refinement
import Umanet.Fast.TxConservation

namespace Umanet

open Framework

variable {α : Type}

/-- A vhost_tx core that many VMs share, with the rings, and what each VM got and what was freed
of its packets. -/
structure TxShare (α : Type) where
  core : TxCore α
  rings : Vid → List α
  delivered : Vid → List α
  freed : Vid → List α

/-- Other threads enqueue; the plan, the clock readings and the return codes are inputs. -/
inductive ShareAct (α : Type)
  | enqueue (v : Vid) (pkts : List α)
  | load (plan : List Vid)
  | visit (start now : Nat) (ret : Int)
  | send (now : Nat) (ret : Int)

/-- The part of the state that one VM has a share in. -/
structure VmTx (α : Type) where
  slot : TxSlot α
  held : List α
  ring : List α
  delivered : List α
  freed : List α

inductive VmTxAct (α : Type)
  | enqueue (pkts : List α)
  | visit (start now : Nat) (ret : Int)
  | send (now : Nat) (ret : Int)

namespace VmTx

/-- The result of vhost_send or vhost_resend. -/
def offer (u : VmTx α) (r : TxResult α) : VmTx α := {u with
  slot:=r.slot
  held:=[]
  delivered:=u.delivered++r.delivered
  freed:=u.freed++r.freed}

/-- vhost_tx_loop for a single VM. -/
def step (u : VmTx α) : VmTxAct α → Option (VmTx α)
  | .enqueue pkts => some {u with ring:=u.ring++pkts}
  | .visit start now ret =>
    if u.held≠[] then none
    else if u.slot.skips start then some u
    else if u.slot.retry.isEmpty then some {u with
      held:=u.ring.take maxPktBurst
      ring:=u.ring.drop maxPktBurst}
    else some (u.offer (vhostResend now ret u.slot))
  | .send now ret => some (u.offer (vhostSend now ret u.held u.slot))

/-- The VM takes what it is offered, and is visited when its deadline is over. -/
def Willing (u : VmTx α) : VmTxAct α → Prop
  | .enqueue _ => True
  | .visit start _ ret => u.slot.skips start=false ∧ (u.slot.retry.length : Int) ≤ ret
  | .send _ ret => (u.held.length : Int) ≤ ret

instance (u : VmTx α) : (e : VmTxAct α) → Decidable (u.Willing e)
  | .enqueue _ => isTrue trivial
  | .visit .. => inferInstanceAs (Decidable (_ ∧ _))
  | .send .. => inferInstanceAs (Decidable (_ ≤ _))

end VmTx

def VmTxAct.isVisit : VmTxAct α → Bool
  | .visit .. => true
  | _ => false

def countVisits (es : List (VmTxAct α)) : Nat := es.countP VmTxAct.isVisit

namespace VmTx

/-- With the visits it takes to empty the retry buffer and to dequeue the first n packets of the
ring, a willing VM gets all of them, in order. -/
theorem drains (es : List (VmTxAct α)) {u w : VmTx α} {n : Nat} (h : run step u es=some w)
    (hw : Meets step Willing u es) (hs : u.held≠[] → u.slot.retry=[]) (hn : n ≤ u.ring.length)
    (hv : (if u.slot.retry=[] then 0 else maxPktBurst)+n ≤ maxPktBurst*countVisits es)
    (hend : w.held=[]) :
    u.delivered++(u.slot.retry++(u.held++u.ring.take n))<+:w.delivered := by
  induction es generalizing u n with
  | nil =>
    have h' := Option.some.inj h
    subst h'
    have hzero : n=0 := by
      change _ ≤ maxPktBurst*0 at hv
      omega
    have hretry : u.slot.retry=[] := by
      by_contra hne
      rw [if_neg hne,hzero] at hv
      exact absurd hv (by change ¬maxPktBurst+0 ≤ maxPktBurst*0; decide)
    rw [hretry,hend,hzero]
    simp
  | cons e es ih =>
    obtain ⟨x,hx,hrun⟩ := Option.bind_eq_some_iff.mp h
    obtain ⟨hg,hm⟩ := hw x hx
    cases e with
    | enqueue pkts =>
      have hx' := Option.some.inj hx
      subst hx'
      have hall := ih hrun hm hs (hn.trans (by simp)) hv
      simpa [List.take_append_of_le_length hn] using hall
    | visit start now ret =>
      simp only [step] at hx
      split at hx
      · cases hx
      · next hheld =>
        have hheld' : u.held=[] := not_not.mp hheld
        have hcount : countVisits (VmTxAct.visit start now ret::es)=countVisits es+1 :=
          List.countP_cons_of_pos rfl
        rw [hcount] at hv
        rw [if_neg (by rw [hg.1]; exact Bool.false_ne_true)] at hx
        by_cases hretry : u.slot.retry=[]
        · rw [if_pos (List.isEmpty_iff.mpr hretry)] at hx
          rw [if_pos hretry] at hv
          have hx' := Option.some.inj hx
          subst hx'
          have hall := ih (n:=n-maxPktBurst) hrun hm (fun _ => hretry)
            (by rw [List.length_drop]; omega)
            (by rw [if_pos hretry]; rw [Nat.mul_add] at hv; omega)
          refine List.IsPrefix.trans ?_ hall
          rw [hheld',List.nil_append,← List.take_add]
          apply (List.prefix_append_right_inj _).mpr
          apply (List.prefix_append_right_inj _).mpr
          exact List.take_prefix_take_left (by omega)
        · rw [if_neg (by rw [List.isEmpty_iff]; exact hretry)] at hx
          rw [if_neg hretry] at hv
          have hx' := Option.some.inj hx
          subst hx'
          have hle : ¬ret.toNat < u.slot.retry.length := by have hg' := hg.2; omega
          have hnil : (u.offer (vhostResend now ret u.slot)).slot.retry=[] :=
            vhostResend_retry now ret u.slot
          have hall := ih hrun hm (fun hne => absurd rfl hne) hn
            (by rw [if_pos hnil]; rw [Nat.mul_add] at hv; omega)
          simp only [offer,vhostResend_retry,vhostResend_delivered] at hall
          rw [List.take_of_length_le (by omega)] at hall
          simpa [hheld'] using hall
    | send now ret =>
      have hx' := Option.some.inj hx
      subst hx'
      have hle : ¬ret.toNat < u.held.length := by
        have hg' : (u.held.length : Int) ≤ ret := hg
        omega
      have hsent : vhostSend now ret u.held u.slot=
          ⟨⟨u.slot.retry,{u.slot.bp with blocked:=false}⟩,u.held,u.held⟩ := by
        simp only [vhostSend,if_neg hle,List.take_of_length_le (Nat.le_of_not_lt hle)]
      rw [hsent] at hrun hm
      have hall := ih hrun hm (fun hne => absurd rfl hne) hn hv
      by_cases hempty : u.held=[]
      · simpa [offer,hempty] using hall
      · simpa [offer,hs hempty] using hall

end VmTx

namespace TxShare

def init : TxShare α := ⟨.init,fun _ => [],fun _ => [],fun _ => []⟩

def record (s : TxShare α) (o : TxOut α) : TxShare α :=
  ⟨o.core,o.rings,fun v => s.delivered v++o.delivered v,fun v => s.freed v++o.freed v⟩

def step (s : TxShare α) : ShareAct α → Option (TxShare α)
  | .enqueue v pkts => some {s with rings:=Function.update s.rings v (s.rings v++pkts)}
  | .load plan => (s.core.step plan s.rings .load).map s.record
  | .visit start now ret => (s.core.step [] s.rings (.visit start now ret)).map s.record
  | .send now ret => (s.core.step [] s.rings (.send now ret)).map s.record

def view (v : Vid) (s : TxShare α) : VmTx α :=
  ⟨s.core.slot v,s.core.held v,s.rings v,s.delivered v,s.freed v⟩

/-- What a step is to a VM: a step of its own, or nothing. -/
def vmActs (v : Vid) (s : TxShare α) : ShareAct α → List (VmTxAct α)
  | .enqueue u pkts => if u=v then [.enqueue pkts] else []
  | .load _ => []
  | .visit start now ret => if s.core.current=some v then [.visit start now ret] else []
  | .send now ret => if s.core.current=some v then [.send now ret] else []

section
variable {s t : TxShare α} {v : Vid}

theorem view_quiet {pc : TxPc α} {rings : Vid → List α}
    (hheld : (⟨pc,s.core.slot⟩ : TxCore α).held v=s.core.held v) (hring : rings v=s.rings v) :
    (s.record ((⟨pc,s.core.slot⟩ : TxCore α).quiet rings)).view v=s.view v := by
  simp only [view,record,TxCore.quiet,hheld,hring,List.append_nil]

theorem view_offer_self (s : TxShare α) (v : Vid) (pkts : List α) (r : TxResult α)
    (todo : List Vid) :
    (s.record (s.core.offer s.rings v pkts r todo)).view v=(s.view v).offer r := by
  simp only [view,record,TxCore.offer,VmTx.offer,Function.update_self,only_self]
  rfl

theorem view_offer_other {u : Vid} (hu : v≠u) (hheld : s.core.held v=[]) (pkts : List α)
    (r : TxResult α) (todo : List Vid) :
    (s.record (s.core.offer s.rings u pkts r todo)).view v=s.view v := by
  simp only [view,record,TxCore.offer,Function.update_of_ne hu,only_of_ne hu,List.append_nil,hheld]
  rfl

theorem view_serve_self {todo : List Vid} (hpc : s.core.pc=.loop (v::todo)) (start now : Nat)
    (ret : Int) : (s.view v).step (.visit start now ret)=
      some ((s.record (s.core.serve s.rings start now ret v todo)).view v) := by
  have hheld : s.core.held v=[] := by rw [TxCore.held,hpc]
  have hview : (s.view v).held=[] := hheld
  have hloop : (⟨.loop todo,s.core.slot⟩ : TxCore α).held v=s.core.held v := by
    rw [hheld]
    rfl
  simp only [VmTx.step,hview,ne_eq,not_true_eq_false,if_false]
  change (if (s.core.slot v).skips start=true then _ else
    if (s.core.slot v).retry.isEmpty=true then _ else _)=_
  unfold TxCore.serve
  by_cases hskip : (s.core.slot v).skips start=true
  · rw [if_pos hskip,if_pos hskip]
    exact congrArg some (view_quiet hloop rfl).symm
  · rw [if_neg hskip,if_neg hskip]
    by_cases hretry : (s.core.slot v).retry.isEmpty=true
    · rw [if_pos hretry,if_pos hretry]
      dsimp only
      split
      · next hempty =>
        have hnil := List.isEmpty_iff.mp hempty
        simp only [view,record,TxCore.quiet,Function.update_self,List.append_nil,hnil]
        rfl
      · simp only [view,record,TxCore.quiet,Function.update_self,List.append_nil,TxCore.held,
          only_self]
    · rw [if_neg hretry,if_neg hretry]
      exact congrArg some (view_offer_self s v _ _ todo).symm

theorem view_serve_other {u : Vid} {todo : List Vid} (hpc : s.core.pc=.loop (u::todo)) (hu : v≠u)
    (start now : Nat) (ret : Int) :
    (s.record (s.core.serve s.rings start now ret u todo)).view v=s.view v := by
  have hheld : s.core.held v=[] := by rw [TxCore.held,hpc]
  rcases s.core.serve_cases s.rings start now ret u todo with he | ⟨-,-,-,he⟩ | ⟨-,he⟩
  · rw [he]
    exact view_quiet (hheld ▸ rfl) rfl
  · rw [he]
    apply view_quiet
    · rw [hheld]
      exact only_of_ne hu _
    · exact Function.update_of_ne hu ..
  · rw [he]
    exact view_offer_other hu hheld _ _ _

/-- Every step of the core is to a VM a step of its own or nothing. -/
theorem step_view {a : ShareAct α} (v : Vid) (h : s.step a=some t) :
    run VmTx.step (s.view v) (s.vmActs v a)=some (t.view v) := by
  cases a with
  | enqueue u pkts =>
    have h' := Option.some.inj h
    subst h'
    rw [vmActs]
    split
    · next hu =>
      subst hu
      simp only [run,VmTx.step,Option.bind_some,view,Function.update_self]
    · next hu =>
      simp only [run,view,Function.update_of_ne (Ne.symm hu)]
  | load plan =>
    obtain ⟨o,ho,ht⟩ := Option.map_eq_some_iff.mp h
    subst ht
    simp only [TxCore.step] at ho
    split at ho
    · next hpc =>
      have ho' := Option.some.inj ho
      subst ho'
      have hheld : s.core.held v=[] := by rw [TxCore.held,hpc]
      exact congrArg some (view_quiet (hheld ▸ rfl) rfl).symm
    · cases ho
  | visit start now ret =>
    obtain ⟨o,ho,ht⟩ := Option.map_eq_some_iff.mp h
    subst ht
    simp only [TxCore.step] at ho
    split at ho
    · next u todo hpc =>
      have ho' := Option.some.inj ho
      subst ho'
      have hcur : s.core.current=some u := by rw [TxCore.current,TxCore.todo,hpc]; rfl
      rw [vmActs,hcur]
      split
      · next hu =>
        have hu' := Option.some.inj hu
        subst hu'
        rw [run,view_serve_self hpc]
        rfl
      · next hu =>
        have hne : v≠u := fun e => hu (congrArg some e.symm)
        exact congrArg some (view_serve_other hpc hne start now ret).symm
    · cases ho
  | send now ret =>
    obtain ⟨o,ho,ht⟩ := Option.map_eq_some_iff.mp h
    subst ht
    simp only [TxCore.step] at ho
    split at ho
    · next u pkts todo hpc =>
      have ho' := Option.some.inj ho
      subst ho'
      have hcur : s.core.current=some u := by rw [TxCore.current,TxCore.todo,hpc]; rfl
      have hheld : s.core.held=only u pkts := by rw [TxCore.held,hpc]
      rw [vmActs,hcur]
      split
      · next hu =>
        have hu' := Option.some.inj hu
        subst hu'
        have hview : (s.view u).held=pkts := by
          change s.core.held u=pkts
          rw [hheld,only_self]
        simp only [run,VmTx.step,Option.bind_some,hview]
        exact congrArg some (view_offer_self s u _ _ todo).symm
      · next hu =>
        have hne : v≠u := fun e => hu (congrArg some e.symm)
        apply congrArg some
        exact (view_offer_other hne (by rw [hheld]; exact only_of_ne hne _) _ _ _).symm
    · cases ho

theorem step_single {a : ShareAct α} (hs : s.core.Single) (h : s.step a=some t) :
    t.core.Single := by
  cases a with
  | enqueue u pkts =>
    have h' := Option.some.inj h
    subst h'
    exact hs
  | load plan =>
    obtain ⟨o,ho,ht⟩ := Option.map_eq_some_iff.mp h
    subst ht
    exact (TxStep.of_step hs ho).single
  | visit start now ret =>
    obtain ⟨o,ho,ht⟩ := Option.map_eq_some_iff.mp h
    subst ht
    exact (TxStep.of_step hs ho).single
  | send now ret =>
    obtain ⟨o,ho,ht⟩ := Option.map_eq_some_iff.mp h
    subst ht
    exact (TxStep.of_step hs ho).single

end

/-- VMs on one vhost_tx core do not affect each other: in any two runs in which a VM gets the same
packets, visits and return codes, it ends with the same packets delivered, freed, retained and
queued and the same backpressure, whatever the plans and whatever the other VMs do. -/
theorem tx_isolated (v : Vid) {as bs : List (ShareAct α)} {s t : TxShare α}
    (hs : run TxShare.step init as=some s) (ht : run TxShare.step init bs=some t)
    (h : trace TxShare.step (vmActs v) init as=trace TxShare.step (vmActs v) init bs) :
    s.view v=t.view v := by
  have hs' := run_projects (step_view v) as hs
  have ht' := run_projects (step_view v) bs ht
  rw [h,ht'] at hs'
  exact (Option.some.inj hs').symm

/-- VM 1 alone on its core, and together with VM 2, which takes nothing and is blocked. -/
def aloneRun : List (ShareAct Nat) :=
  [.enqueue 1 [7,8],.load [1],.visit 0 0 0,.send 5 1,.load [1],.visit 100005 100006 1]

def sharedRun : List (ShareAct Nat) :=
  [.enqueue 2 [9],.load [2,1],.visit 0 0 0,.send 3 (-1),.enqueue 1 [7,8],.visit 0 0 0,.send 5 1,
    .load [2,1],.visit 4 4 0,.visit 100005 100006 1]

theorem tx_isolated_sharedRun : ∃ s t,run TxShare.step init aloneRun=some s ∧
    run TxShare.step init sharedRun=some t ∧ s.delivered 1=[7,8] ∧ t.delivered 1=[7,8] := by
  have hrun : ∀ as,(run TxShare.step init as).map (fun s => s.delivered 1)=some [7,8] →
      ∃ s,run TxShare.step init as=some s ∧ s.delivered 1=[7,8] := by
    intro as h
    exact Option.map_eq_some_iff.mp h
  obtain ⟨s,hs,hd⟩ := hrun aloneRun (by decide +kernel)
  have hsome : (run TxShare.step init sharedRun).isSome=true := by decide +kernel
  obtain ⟨t,ht⟩ := Option.isSome_iff_exists.mp hsome
  have hview := tx_isolated 1 hs ht (by rfl)
  refine ⟨s,t,hs,ht,hd,?_⟩
  have hdel := congrArg VmTx.delivered hview
  exact hdel.symm.trans hd

/-- A VM that takes what it is offered is not starved: once it has been visited, after its
deadlines, one time more than the bursts its ring holds, it has got everything that was waiting
for it, in order, whatever is enqueued meanwhile and whatever the core does for the others. -/
theorem tx_drains (v : Vid) {as : List (ShareAct α)} {s t : TxShare α}
    (hs : Reaches TxShare.step anyStep init s) (h : run TxShare.step s as=some t)
    (hw : Meets VmTx.step VmTx.Willing (s.view v) (trace TxShare.step (vmActs v) s as))
    (hn : maxPktBurst+(s.rings v).length ≤
      maxPktBurst*countVisits (trace TxShare.step (vmActs v) s as)) (hend : t.core.held v=[]) :
    s.delivered v++(s.core.line v++s.rings v)<+:t.delivered v := by
  have hsingle : s.core.Single :=
    hs.invariant (I:=fun u : TxShare α => u.core.Single) TxCore.init_single
      (fun hu _ ht => step_single hu ht)
  have hbudget : (if (s.view v).slot.retry=[] then 0 else maxPktBurst)+(s.rings v).length ≤
      maxPktBurst*countVisits (trace TxShare.step (vmActs v) s as) := by
    split <;> omega
  have hall := VmTx.drains _ (run_projects (step_view v) as h) hw (hsingle v) le_rfl hbudget hend
  rw [List.take_of_length_le le_rfl] at hall
  simpa [TxCore.line,view] using hall

/-- VM 1 refuses a burst; then it takes that and what has come since. -/
def refusedRun : List (ShareAct Nat) := [.enqueue 1 [7,8],.load [2,1],.visit 0 0 0,.visit 0 0 0,
  .send 5 (-1)]

def takingRun : List (ShareAct Nat) :=
  [.enqueue 1 [9],.load [1],.visit 100005 100006 2,.load [1],.visit 100007 0 0,.send 100008 1]

theorem tx_drains_takingRun : ∃ s t,Reaches TxShare.step anyStep init s ∧
    run TxShare.step s takingRun=some t ∧ s.core.line 1=[7,8] ∧ [7,8]<+:t.delivered 1 := by
  have hrun : ((guardedRun TxShare.step anyStep init refusedRun).bind fun s =>
      (guardedRun VmTx.step VmTx.Willing (s.view 1) (trace TxShare.step (vmActs 1) s takingRun)).bind
        fun _ => (run TxShare.step s takingRun).map fun t => (s.core.line 1,s.rings 1,s.delivered 1,
          countVisits (trace TxShare.step (vmActs 1) s takingRun),t.core.held 1))=
      some ([7,8],[],[],2,[]) := by decide +kernel
  obtain ⟨s,hs,hrun'⟩ := Option.bind_eq_some_iff.mp hrun
  obtain ⟨w,hw,hrun''⟩ := Option.bind_eq_some_iff.mp hrun'
  obtain ⟨t,ht,hf⟩ := Option.map_eq_some_iff.mp hrun''
  simp only [Prod.mk.injEq] at hf
  obtain ⟨hline,hring,hdel,hvisits,hheld⟩ := hf
  have hall := tx_drains 1 (guardedRun_reaches _ hs) ht (meets_of_guardedRun _ hw).2
    (by rw [hring,hvisits]; decide) hheld
  rw [hdel,hline,hring] at hall
  exact ⟨s,t,guardedRun_reaches _ hs,ht,hline,hall⟩

end TxShare

end Umanet
