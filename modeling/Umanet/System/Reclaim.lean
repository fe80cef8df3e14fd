import Umanet.Framework.Publication
import Umanet.System.Threads

namespace Umanet

open Framework

/-- The threads that allocate plans. -/
inductive Writer
  | ctl
  | slow
  deriving DecidableEq

/-- The entries of vhost_rx_plans and vhost_tx_plans. -/
abbrev PlanKey (cfg : Config) := {x : Dir × Nat // x.2 < cfg.cores x.1}

def PlanPc.block : PlanPc → Option Ptr
  | .cas _ _ _ new => some new.addr
  | _ => none

def CtlPc.block : CtlPc → Option Ptr
  | .add _ _ pc => pc.block
  | .remove _ _ _ pc => pc.block
  | _ => none

def SlowPc.block : SlowPc → Option Ptr
  | .calcXchg _ _ _ new => some new.addr
  | _ => none

/-- The plan that the slow path has taken out and not freed yet. -/
def SlowPc.old : SlowPc → Option Ptr
  | .calcFree _ _ _ old => some old
  | _ => none

def SlowPc.Bound (cfg : Config) : SlowPc → Prop
  | .calcBuild dir _ i _ => i < cfg.cores dir
  | .calcXchg dir _ i _ => i < cfg.cores dir
  | _ => True

namespace Sys

def memory (cfg : Config) (s : Sys) : Publication Writer Unit (PlanKey cfg) Ptr where
  live:=s.live
  pub:=fun k => (s.plans k.val.1 k.val.2).addr
  spare:=fun
    | .inl .ctl => s.ctl.block
    | .inl .slow => s.slow.block
    | .inr () => s.slow.old

def frees (s : Sys) : Action → Option Ptr
  | .slow _ => s.slow.old
  | _ => none

section
variable {cfg : Config} {s t : Sys} {m : Publication Writer Unit (PlanKey cfg) Ptr}

theorem memory_eq (hl : t.live=m.live)
    (hp : ∀ k : PlanKey cfg,(t.plans k.val.1 k.val.2).addr=m.pub k)
    (hc : t.ctl.block=m.spare (.inl .ctl)) (hs : t.slow.block=m.spare (.inl .slow))
    (ho : t.slow.old=m.spare (.inr ())) : t.memory cfg=m := by
  obtain ⟨live,pub,spare⟩ := m
  have hpub : (fun k : PlanKey cfg => (t.plans k.val.1 k.val.2).addr)=pub := funext hp
  have hspare : (t.memory cfg).spare=spare := by
    funext w
    rcases w with (_ | _) | _
    · exact hc
    · exact hs
    · exact ho
  have hl' : t.live=live := hl
  rw [← hspare,← hpub,← hl']
  rfl

def Acts (cfg : Config) (s t : Sys) (e : PubAct Writer Unit (PlanKey cfg) Ptr) : Prop :=
  (s.memory cfg).Enabled e ∧ t.memory cfg=(s.memory cfg).apply e

theorem acts_quiet (hl : t.live=s.live) (hp : t.plans=s.plans) (hc : t.ctl.block=s.ctl.block)
    (hs : t.slow.block=s.slow.block) (ho : t.slow.old=s.slow.old) : Acts cfg s t .quiet :=
  ⟨trivial,memory_eq hl (fun _ => by rw [hp]; rfl) hc hs ho⟩

theorem loadCopy_acts {o : Oracle} {dir : Dir} {core : Nat} {edit : VhostPlan → VhostPlan}
    {k : PlanPc → CtlPc} (hk : ∀ pc,(k pc).block=pc.block) (hn : s.ctl.block=none)
    (h : s.loadCopy o dir core edit k=some t) : Acts cfg s t (.alloc .ctl o.addr) := by
  unfold loadCopy at h
  split at h
  · cases h
  · next hfree =>
    have h' := Option.some.inj h
    subst h'
    refine ⟨⟨Bool.eq_false_of_not_eq_true hfree,hn⟩,memory_eq rfl (fun _ => rfl) ?_ rfl rfl⟩
    rw [hk]
    change some o.addr=Function.update (s.memory cfg).spare (.inl .ctl) (some o.addr) (.inl .ctl)
    rw [Function.update_self]

theorem setPlan_addr (dir : Dir) (core : Nat) (new : PlanCell) (k : PlanKey cfg) :
    (setPlan s.plans dir core new k.val.1 k.val.2).addr=
      if k.val=(dir,core) then new.addr else (s.plans k.val.1 k.val.2).addr := by
  by_cases hk : k.val=(dir,core)
  · rw [if_pos hk,hk]
    simp [setPlan]
  · have hne : ¬(k.val.1=dir ∧ k.val.2=core) := fun e => hk (Prod.ext e.1 e.2)
    rw [if_neg hk]
    simp only [setPlan,if_neg hne]

theorem setPlan_pub {dir : Dir} {core : Nat} (new : PlanCell) (hcore : core < cfg.cores dir)
    (k : PlanKey cfg) : (setPlan s.plans dir core new k.val.1 k.val.2).addr=
      Function.update (s.memory cfg).pub ⟨(dir,core),hcore⟩ new.addr k := by
  rw [setPlan_addr]
  by_cases hk : k=⟨(dir,core),hcore⟩
  · subst hk
    rw [if_pos rfl,Function.update_self]
  · rw [if_neg (fun e => hk (Subtype.ext e)),Function.update_of_ne hk]
    rfl

theorem casPlan_acts {o : Oracle} {dir : Dir} {core : Nat} {old : Ptr} {new : PlanCell}
    {k : PlanPc → CtlPc} (hk : ∀ pc,(k pc).block=pc.block) (hn : s.ctl.block=some new.addr) :
    ∃ e,e.reclaims=none ∧ Acts cfg s (s.casPlan o dir core old new k) e := by
  have hclear {pc : PlanPc} (hpc : pc.block=none) :
      (k pc).block=Function.update (s.memory cfg).spare (.inl .ctl) none (.inl .ctl) := by
    rw [hk,hpc,Function.update_self]
  unfold casPlan
  split
  · by_cases hcore : core < cfg.cores dir
    · exact ⟨.publish .ctl ⟨(dir,core),hcore⟩ new.addr,rfl,hn,
        memory_eq rfl (setPlan_pub new hcore) (hclear rfl) rfl rfl⟩
    · refine ⟨.forget .ctl new.addr,rfl,hn,memory_eq rfl (fun x => ?_) (hclear rfl) rfl rfl⟩
      rw [setPlan_addr,if_neg]
      · rfl
      · intro e
        have hx := x.property
        rw [e] at hx
        exact hcore hx
  · exact ⟨.free (.inl .ctl) new.addr,rfl,hn,
      memory_eq rfl (fun _ => rfl) (hclear rfl) rfl rfl⟩

theorem ctl_acts {c : CtlPc} {coreMap : Dir → Vid → Nat} {running : Vid → Bool}
    (hs : s.ctl.block=none) (hc : c.block=none) :
    ∃ e,e.reclaims=none ∧ Acts cfg s {s with coreMap:=coreMap,running:=running,ctl:=c} e :=
  ⟨.quiet,rfl,acts_quiet rfl rfl (hc.trans hs.symm) rfl rfl⟩

theorem addStep_acts {o : Oracle} {dir : Dir} {v : Vid} {pc : PlanPc} (hpc : s.ctl=.add dir v pc)
    (h : s.addStep cfg o dir v pc=some t) : ∃ e,e.reclaims=none ∧ Acts cfg s t e := by
  have hblock : s.ctl.block=pc.block := by rw [hpc]; rfl
  cases pc with
  | search i best min =>
    simp only [addStep] at h
    split at h
    · split at h <;> obtain rfl := Option.some.inj h <;> exact ctl_acts hblock rfl
    · split at h <;> obtain rfl := Option.some.inj h <;> exact ctl_acts hblock rfl
  | lookup i => cases h
  | load c =>
    simp only [addStep] at h
    split at h
    · obtain rfl := Option.some.inj h
      exact ctl_acts hblock rfl
    · exact ⟨_,rfl,loadCopy_acts (fun _ => rfl) hblock h⟩
  | cas c old src new =>
    obtain rfl := Option.some.inj h
    exact casPlan_acts (fun _ => rfl) hblock
  | mapWrite c =>
    cases dir <;> obtain rfl := Option.some.inj h <;> exact ctl_acts hblock rfl

theorem removeStep_acts {o : Oracle} {dir : Dir} {v : Vid} {p : DevPtr} {pc : PlanPc}
    (hpc : s.ctl=.remove dir v p pc) (h : s.removeStep cfg o dir v p pc=some t) :
    ∃ e,e.reclaims=none ∧ Acts cfg s t e := by
  have hblock : s.ctl.block=pc.block := by rw [hpc]; rfl
  cases pc with
  | search i best min => cases h
  | lookup i =>
    simp only [removeStep] at h
    split at h
    · split at h <;> obtain rfl := Option.some.inj h <;> exact ctl_acts hblock rfl
    · obtain rfl := Option.some.inj h
      exact ctl_acts hblock rfl
  | load c =>
    simp only [removeStep] at h
    exact ⟨_,rfl,loadCopy_acts (fun _ => rfl) hblock h⟩
  | cas c old src new =>
    obtain rfl := Option.some.inj h
    exact casPlan_acts (fun _ => rfl) hblock
  | mapWrite c =>
    cases dir <;> obtain rfl := Option.some.inj h <;> exact ctl_acts hblock rfl

theorem unlinkStep_frame (s : Sys) (v : Vid) (p : DevPtr) (pc : UnlinkPc) :
    (s.unlinkStep v p pc).live=s.live ∧ (s.unlinkStep v p pc).plans=s.plans ∧
      (s.unlinkStep v p pc).slow=s.slow ∧ (s.unlinkStep v p pc).ctl.block=none := by
  cases pc with
  | test =>
    simp only [unlinkStep]
    split <;> exact ⟨rfl,rfl,rfl,rfl⟩
  | routeTest =>
    simp only [unlinkStep]
    split <;> exact ⟨rfl,rfl,rfl,rfl⟩
  | routeClear b => exact ⟨rfl,rfl,rfl,rfl⟩
  | clearMac => exact ⟨rfl,rfl,rfl,rfl⟩
  | clearIp => exact ⟨rfl,rfl,rfl,rfl⟩
  | mark => exact ⟨rfl,rfl,rfl,rfl⟩

theorem ctlStep_acts {L : VdevList} {o : Oracle} (h : s.ctlStep cfg L o=some t) :
    t.slow=s.slow ∧ ∃ e,e.reclaims=none ∧ Acts cfg s t e := by
  unfold ctlStep at h
  have quiet {list : Option VdevList} {listVer : Nat} {flow : FlowTable} {c : CtlPc}
      (hs : s.ctl.block=none) (hc : c.block=none) :
      ∃ e,e.reclaims=none ∧ Acts cfg s {s with list:=list,listVer:=listVer,flow:=flow,ctl:=c} e :=
    ⟨.quiet,rfl,acts_quiet rfl rfl (hc.trans hs.symm) rfl rfl⟩
  split at h
  · cases h
  · next hpc =>
    split at h <;> obtain rfl := Option.some.inj h <;>
      exact ⟨rfl,quiet (by rw [hpc]; rfl) rfl⟩
  · next hpc =>
    split at h <;> obtain rfl := Option.some.inj h <;>
      exact ⟨rfl,quiet (by rw [hpc]; rfl) rfl⟩
  · next hpc =>
    split at h <;> obtain rfl := Option.some.inj h <;>
      exact ⟨rfl,quiet (by rw [hpc]; rfl) rfl⟩
  · next hpc => exact ⟨(addStep_frame h).2.1,addStep_acts hpc h⟩
  · next hpc =>
    split at h <;> obtain rfl := Option.some.inj h <;>
      exact ⟨rfl,quiet (by rw [hpc]; rfl) rfl⟩
  · next v p pc hpc =>
    obtain rfl := Option.some.inj h
    obtain ⟨hl,hp,hs,hb⟩ := unlinkStep_frame s v p pc
    refine ⟨hs,.quiet,rfl,acts_quiet hl hp ?_ (by rw [hs]) (by rw [hs])⟩
    rw [hb,hpc]
    rfl
  · next hpc =>
    split at h
    · obtain rfl := Option.some.inj h
      exact ⟨rfl,quiet (by rw [hpc]; rfl) rfl⟩
    · split at h <;> obtain rfl := Option.some.inj h <;>
        exact ⟨rfl,quiet (by rw [hpc]; rfl) rfl⟩
  · next hpc =>
    split at h <;> obtain rfl := Option.some.inj h <;>
      exact ⟨rfl,quiet (by rw [hpc]; rfl) rfl⟩
  · next hpc => exact ⟨(removeStep_frame h).2.1,removeStep_acts hpc h⟩
  · next hpc =>
    obtain rfl := Option.some.inj h
    exact ⟨rfl,quiet (by rw [hpc]; rfl) rfl⟩

theorem linkStep_frame (cfg : Config) (s : Sys) (o : Oracle) (snap : VdevList)
    (ms : List LearnMsg) (p : DevPtr)
    (d : Data) (pc : LinkPc) : (s.linkStep cfg o snap ms p d pc).live=s.live ∧
      (s.linkStep cfg o snap ms p d pc).plans=s.plans ∧
      (s.linkStep cfg o snap ms p d pc).ctl=s.ctl ∧
      (s.linkStep cfg o snap ms p d pc).slow.block=none ∧
      (s.linkStep cfg o snap ms p d pc).slow.old=none ∧
      (s.linkStep cfg o snap ms p d pc).slow.Bound cfg := by
  cases pc with
  | mac => exact ⟨rfl,rfl,rfl,rfl,rfl,trivial⟩
  | ip => exact ⟨rfl,rfl,rfl,rfl,rfl,trivial⟩
  | vmId => exact ⟨rfl,rfl,rfl,rfl,rfl,trivial⟩
  | routeTest =>
    simp only [linkStep]
    split <;> exact ⟨rfl,rfl,rfl,rfl,rfl,trivial⟩
  | routeSet b => exact ⟨rfl,rfl,rfl,rfl,rfl,trivial⟩
  | ready => exact ⟨rfl,rfl,rfl,rfl,rfl,trivial⟩
  | flowTest =>
    simp only [linkStep]
    split <;> exact ⟨rfl,rfl,rfl,rfl,rfl,trivial⟩
  | flowCreate => exact ⟨rfl,rfl,rfl,rfl,rfl,trivial⟩

/-- What a step of the slow path does, and which plan it frees. -/
def SlowActs (cfg : Config) (s t : Sys) : Prop :=
  t.slow.Bound cfg ∧ ∃ e,Acts cfg s t e ∧ e.reclaims=s.slow.old

theorem slowActs_quiet (hb : t.slow.Bound cfg) (hl : t.live=s.live) (hp : t.plans=s.plans)
    (hc : t.ctl=s.ctl) (hs : s.slow.block=none ∧ s.slow.old=none)
    (ht : t.slow.block=none ∧ t.slow.old=none) : SlowActs cfg s t :=
  ⟨hb,.quiet,acts_quiet hl hp (by rw [hc]) (ht.1.trans hs.1.symm) (ht.2.trans hs.2.symm),hs.2.symm⟩

theorem calcStep_acts {L : VdevList} {o : Oracle} {pc : SlowPc} (hpc : s.slow=pc)
    (hb : pc.Bound cfg) (h : s.calcStep cfg L o pc=some t) : SlowActs cfg s t := by
  have hblock : s.slow.block=pc.block := by rw [hpc]
  have hold : s.slow.old=pc.old := by rw [hpc]
  cases pc with
  | calcStart dir =>
    obtain rfl := Option.some.inj h
    exact slowActs_quiet trivial rfl rfl rfl ⟨hblock,hold⟩ ⟨rfl,rfl⟩
  | calcLoad dir snap i =>
    simp only [calcStep] at h
    split at h
    · next hi =>
      obtain rfl := Option.some.inj h
      exact slowActs_quiet hi rfl rfl rfl ⟨hblock,hold⟩ ⟨rfl,rfl⟩
    · cases dir <;> obtain rfl := Option.some.inj h <;>
        exact slowActs_quiet trivial rfl rfl rfl ⟨hblock,hold⟩ ⟨rfl,rfl⟩
  | calcBuild dir snap i act =>
    simp only [calcStep] at h
    split at h
    · cases h
    · next hfree =>
      obtain rfl := Option.some.inj h
      refine ⟨hb,.alloc .slow o.addr,⟨⟨Bool.eq_false_of_not_eq_true hfree,hblock⟩,
        memory_eq rfl (fun _ => rfl) rfl ?_ hold.symm⟩,hold.symm⟩
      change some o.addr=
        Function.update (s.memory cfg).spare (.inl .slow) (some o.addr) (.inl .slow)
      rw [Function.update_self]
  | calcXchg dir snap i new =>
    obtain rfl := Option.some.inj h
    exact ⟨trivial,.exchange .slow () ⟨(dir,i),hb⟩ new.addr,
      ⟨⟨hblock,hold⟩,memory_eq rfl (setPlan_pub new hb) rfl rfl rfl⟩,hold.symm⟩
  | calcFree dir snap i old =>
    obtain rfl := Option.some.inj h
    exact ⟨trivial,.free (.inr ()) old,⟨hold,memory_eq rfl (fun _ => rfl) rfl hblock.symm rfl⟩,
      hold.symm⟩
  | _ => cases h

theorem slowStep_acts {o : Oracle} (hb : s.slow.Bound cfg) (h : s.slowStep cfg o=some t) :
    SlowActs cfg s t := by
  unfold slowStep at h
  have quiet {x : SlowPc} {slowRing : List LearnMsg} (hs : s.slow.block=none ∧ s.slow.old=none)
      (hx : x.block=none ∧ x.old=none) (hb : x.Bound cfg) :
      SlowActs cfg s {s with slow:=x,slowRing:=slowRing} :=
    slowActs_quiet hb rfl rfl rfl hs hx
  split at h
  · next pc hpc =>
    obtain rfl := Option.some.inj h
    cases pc <;> exact slowActs_quiet trivial rfl rfl rfl (by rw [hpc]; exact ⟨rfl,rfl⟩) ⟨rfl,rfl⟩
  · next hpc =>
    obtain ⟨L,-,hL⟩ := Option.map_eq_some_iff.mp h
    subst hL
    exact quiet (by rw [hpc]; exact ⟨rfl,rfl⟩) ⟨rfl,rfl⟩ trivial
  · next hpc =>
    split at h
    · obtain rfl := Option.some.inj h
      exact quiet (by rw [hpc]; exact ⟨rfl,rfl⟩) ⟨rfl,rfl⟩ trivial
    · cases h
  · next hpc =>
    split at h <;> obtain rfl := Option.some.inj h <;>
      exact quiet (by rw [hpc]; exact ⟨rfl,rfl⟩) ⟨rfl,rfl⟩ trivial
  · next hpc =>
    split at h <;> obtain rfl := Option.some.inj h <;>
      exact quiet (by rw [hpc]; exact ⟨rfl,rfl⟩) ⟨rfl,rfl⟩ trivial
  · next snap ms p d pc hpc =>
    obtain rfl := Option.some.inj h
    obtain ⟨hl,hp,hc,hblock,hold,hbound⟩ := linkStep_frame cfg s o snap ms p d pc
    exact slowActs_quiet hbound hl hp hc (by rw [hpc]; exact ⟨rfl,rfl⟩) ⟨hblock,hold⟩
  · obtain ⟨L,-,hL⟩ := Option.bind_eq_some_iff.mp h
    exact calcStep_acts rfl hb hL

theorem step_acts {a : Action} (hb : s.slow.Bound cfg) (h : s.step cfg a=some t) :
    t.slow.Bound cfg ∧ ∃ e,Acts cfg s t e ∧ e.reclaims=s.frees a := by
  cases a with
  | newDevice v =>
    obtain ⟨hidle,-,-,rfl⟩ := step_newDevice h
    exact ⟨hb,.quiet,acts_quiet rfl rfl (by rw [hidle]; rfl) rfl rfl,rfl⟩
  | destroyDevice v =>
    obtain ⟨hidle,-,rfl⟩ := step_destroyDevice h
    exact ⟨hb,.quiet,acts_quiet rfl rfl (by rw [hidle]; rfl) rfl rfl,rfl⟩
  | ctl o =>
    obtain ⟨L,-,hL⟩ := Option.bind_eq_some_iff.mp h
    obtain ⟨hslow,e,hfreed,hacts⟩ := ctlStep_acts hL
    exact ⟨hslow ▸ hb,e,hacts,hfreed⟩
  | slow o =>
    exact slowStep_acts hb h
  | issue msg =>
    obtain rfl := Option.some.inj h
    exact ⟨hb,.quiet,acts_quiet rfl rfl rfl rfl rfl,rfl⟩
  | ethPoll c frames =>
    obtain ⟨-,rfl⟩ := step_ethPoll h
    exact ⟨hb,.quiet,acts_quiet rfl rfl rfl rfl rfl,rfl⟩
  | ethLoad c =>
    obtain ⟨frames,-,rfl⟩ := step_ethLoad h
    exact ⟨hb,.quiet,acts_quiet rfl rfl rfl rfl rfl,rfl⟩
  | ethNext c =>
    obtain ⟨snap,frames,-,rfl | rfl⟩ := step_ethNext h
    · exact ⟨hb,.quiet,acts_quiet rfl rfl rfl rfl rfl,rfl⟩
    · exact ⟨hb,.quiet,acts_quiet rfl rfl rfl rfl rfl,rfl⟩

theorem memory_init (cfg : Config) : ((init cfg).memory cfg).Sound := by
  refine ⟨fun k => ?_,fun k l h => ?_,fun {x p} h => ?_,fun {x y p} h => ?_,
    fun {x k p} h => ?_⟩
  · obtain ⟨⟨dir,i⟩,hi⟩ := k
    cases dir with
    | rx =>
      have hi' : i < cfg.vhostRxCores := hi
      exact decide_eq_true (show i < cfg.vhostRxCores+cfg.vhostTxCores by omega)
    | tx =>
      have hi' : i < cfg.vhostTxCores := hi
      exact decide_eq_true (show cfg.vhostRxCores+i < cfg.vhostRxCores+cfg.vhostTxCores by omega)
  · obtain ⟨⟨dir,i⟩,hi⟩ := k
    obtain ⟨⟨dir',j⟩,hj⟩ := l
    cases dir with
    | rx =>
      have hi' : i < cfg.vhostRxCores := hi
      cases dir' with
      | rx =>
        have he : i=j := h
        subst he
        rfl
      | tx =>
        have he : i=cfg.vhostRxCores+j := h
        omega
    | tx =>
      cases dir' with
      | rx =>
        have hj' : j < cfg.vhostRxCores := hj
        have he : cfg.vhostRxCores+i=j := h
        omega
      | tx =>
        have he : cfg.vhostRxCores+i=cfg.vhostRxCores+j := h
        have he' : i=j := by omega
        subst he'
        rfl
  · rcases x with (_ | _) | _ <;> cases h
  · rcases x with (_ | _) | _ <;> cases h
  · rcases x with (_ | _) | _ <;> cases h

end

end Sys

/-- The system with its readers: the plan that each vhost_rx and vhost_tx core has loaded and
works through. -/
structure Reclaim where
  sys : Sys
  held : Dir → Nat → Option Ptr

/-- A core loads its plan at the top of its loop and is done with it at the bottom. -/
inductive ReclaimAct
  | sys (a : Action)
  | load (dir : Dir) (i : Nat)
  | done (dir : Dir) (i : Nat)

namespace Reclaim

def init (cfg : Config) : Reclaim := ⟨.init cfg,fun _ _ => none⟩

def setHeld (s : Reclaim) (dir : Dir) (i : Nat) (p : Option Ptr) : Reclaim :=
  {s with held:=fun d j => if d=dir ∧ j=i then p else s.held d j}

def step (cfg : Config) (s : Reclaim) : ReclaimAct → Option Reclaim
  | .sys a => (s.sys.step cfg a).map fun t => {s with sys:=t}
  | .load dir i =>
    if i < cfg.cores dir ∧ s.held dir i=none then
      some (s.setHeld dir i (some (s.sys.plans dir i).addr))
    else none
  | .done dir i => some (s.setHeld dir i none)

def ReadersSafe (s : Reclaim) : Prop := ∀ dir i p,s.held dir i=some p → s.sys.live p=true

/-- rte_free in calculate_vhost_rx_plan and calculate_vhost_tx_plan comes when no core works
through the plan. -/
def FreesIdle (s : Reclaim) : ReclaimAct → Prop
  | .sys a => ∀ dir i p,s.held dir i=some p → s.sys.frees a≠some p
  | _ => True

/-- A plan that a core has loaded is no writer's copy. -/
structure Inv (cfg : Config) (s : Reclaim) : Prop where
  memory : (s.sys.memory cfg).Sound
  bound : s.sys.slow.Bound cfg
  held : ∀ dir i p,s.held dir i=some p → ∀ w,(s.sys.memory cfg).spare (.inl w)≠some p

section
variable {cfg : Config} {s t : Reclaim}

theorem held_setHeld {dir d : Dir} {i j : Nat} {p : Option Ptr} {q : Ptr}
    (h : (s.setHeld dir i p).held d j=some q) : p=some q ∨ s.held d j=some q := by
  simp only [setHeld] at h
  split at h
  · exact .inl h
  · exact .inr h

/-- One step keeps the invariant, and keeps the readers safe exactly when it meets the guard. -/
theorem step_inv {a : ReclaimAct} (hi : s.Inv cfg) (hp : s.ReadersSafe)
    (h : s.step cfg a=some t) : t.Inv cfg ∧ (t.ReadersSafe ↔ s.FreesIdle a) := by
  cases a with
  | sys a =>
    obtain ⟨u,hu,ht⟩ := Option.map_eq_some_iff.mp h
    subst ht
    obtain ⟨hb,e,⟨hen,hmem⟩,hfrees⟩ := Sys.step_acts hi.bound hu
    have hkeep {dir : Dir} {i : Nat} {p : Ptr} (hheld : s.held dir i=some p) :=
      Publication.held hen (hp dir i p hheld) (hi.held dir i p hheld)
    refine ⟨⟨hmem ▸ hi.memory.apply hen,hb,fun dir i p hheld => ?_⟩,?_⟩
    · rw [hmem]
      exact (hkeep hheld).1
    · have hlive (p : Ptr) : u.live p=((s.sys.memory cfg).apply e).live p := by
        rw [← hmem]
        rfl
      constructor
      · intro hsafe dir i p hheld hf
        have hl : u.live p=true := hsafe dir i p hheld
        rw [hlive] at hl
        exact (hkeep hheld).2.mp hl (hfrees.trans hf)
      · intro hidle dir i p hheld
        change u.live p=true
        rw [hlive,(hkeep hheld).2,hfrees]
        exact hidle dir i p hheld
  | load dir i =>
    simp only [step] at h
    split at h
    · next hcond =>
      obtain rfl := Option.some.inj h
      have hk : i < cfg.cores dir := hcond.1
      refine ⟨⟨hi.memory,hi.bound,fun d j q hheld => ?_⟩,
        iff_of_true (fun d j q hheld => ?_) trivial⟩
      · rcases held_setHeld hheld with he | he
        · have hq := Option.some.inj he
          subst hq
          intro w hw
          exact hi.memory.apart (k:=⟨(dir,i),hk⟩) hw rfl
        · exact hi.held d j q he
      · rcases held_setHeld hheld with he | he
        · have hq := Option.some.inj he
          subst hq
          exact hi.memory.pubLive ⟨(dir,i),hk⟩
        · exact hp d j q he
    · cases h
  | done dir i =>
    obtain rfl := Option.some.inj h
    refine ⟨⟨hi.memory,hi.bound,fun d j q hheld => ?_⟩,iff_of_true (fun d j q hheld => ?_) trivial⟩
    · rcases held_setHeld hheld with he | he
      · cases he
      · exact hi.held d j q he
    · rcases held_setHeld hheld with he | he
      · cases he
      · exact hp d j q he

end

theorem init_inv (cfg : Config) : (init cfg).Inv cfg :=
  ⟨Sys.memory_init cfg,trivial,fun _ _ _ h => (by cases h)⟩

/-- Over every interleaving of the control thread, the slow path and the fast path cores, with
an allocator that may hand out freed blocks again: no core ever works through a freed plan if and
only if no recalculation frees a plan that a core works through. The edits of new_device and
destroy_device cannot do it. -/
theorem plan_reads_safe_iff (cfg : Config) (as : List ReclaimAct) :
    Visits (step cfg) ReadersSafe (init cfg) as ↔ Meets (step cfg) FreesIdle (init cfg) as :=
  visits_iff_meets (I:=Inv cfg) (fun hi hp _ ht => (step_inv hi hp ht).1)
    (fun hi hp ht => (step_inv hi hp ht).2) (init cfg) as (init_inv cfg)
    (fun _ _ _ h => by cases h)

/-- A vhost_rx core loads its plan right before the first recalculation replaces it. -/
def freedWhileRead : List ReclaimAct :=
  (slowSteps 10 9 0).map .sys++[.load .rx 0]++(slowSteps 20 2 0).map .sys

/-- Nothing in the code keeps the two apart: the core has plan 0, which is not allocated. -/
example : (run (step smallConfig) (init smallConfig) freedWhileRead).map
    (fun s => (s.held .rx 0,s.sys.live 0))=some (some 0,false) := by
  decide +kernel

end Reclaim

end Umanet
