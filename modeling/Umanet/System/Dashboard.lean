import Umanet.System.PlanOwnership

namespace Umanet

open Framework

/-- control_dashboard after its load of vdev_list: before the next row, or inside one with the
entries of the loaded plan that are still to be looked up. -/
inductive DashPc
  | idle
  | rows (snap : VdevList) (todo : List (Dir × Nat))
  | row (snap : VdevList) (lookups : List Vid) (todo : List (Dir × Nat))
  | crashed

def DashPc.snap : DashPc → Option VdevList
  | .rows L _ => some L
  | .row L _ _ => some L
  | _ => none

def DashPc.todo : DashPc → List (Dir × Nat)
  | .rows _ l => l
  | .row _ _ l => l
  | _ => []

def DashPc.isCrashed : DashPc → Bool
  | .crashed => true
  | _ => false

theorem DashPc.isCrashed_iff {pc : DashPc} : pc.isCrashed=true ↔ pc=.crashed := by
  cases pc <;> simp [isCrashed]

/-- The system, the dashboard, and the vm_ids it has shown. -/
structure Dash where
  sys : Sys
  pc : DashPc
  shown : List Int

inductive DashAct
  | sys (a : Action)
  | refresh
  | next

/-- A row for each vhost_rx core, then one for each vhost_tx core. -/
def dashRows (cfg : Config) : List (Dir × Nat) :=
  [Dir.rx,Dir.tx].flatMap fun dir => (List.range (cfg.cores dir)).map fun i => (dir,i)

namespace Dash

def init (cfg : Config) : Dash := ⟨.init cfg,.idle,[]⟩

/-- The dashboard runs on the slow path's thread, at the head of its loop: while it runs that
thread does nothing else. A row looks every entry up twice, in control_dashboard and in
print_pkts_by_rx_vdev or print_pkts_by_tx_vdev. -/
def step (cfg : Config) (d : Dash) : DashAct → Option Dash
  | .sys (.slow o) =>
    match d.pc with
    | .idle => (d.sys.step cfg (.slow o)).map fun s => {d with sys:=s}
    | _ => none
  | .sys a =>
    match d.pc with
    | .crashed => none
    | _ => (d.sys.step cfg a).map fun s => {d with sys:=s}
  | .refresh =>
    match d.pc,d.sys.slow with
    | .idle,.loop => d.sys.list.map fun L => {d with pc:=.rows L (dashRows cfg)}
    | _,_ => none
  | .next =>
    match d.pc with
    | .rows _ [] => some {d with pc:=.idle}
    | .rows L ((dir,i)::todo) =>
      let vids := (d.sys.planOf dir i).entries
      some {d with pc:=.row L (vids++vids) todo}
    | .row L [] todo => some {d with pc:=.rows L todo}
    | .row L (v::vs) todo =>
      match L.vdevs v with
      | none => some {d with pc:=.crashed}
      | some p => some {d with
          pc:=.row L vs todo
          shown:=d.shown++[(d.sys.devs p).vmId]}
    | _ => none

end Dash

/-- destroy_device after its publication of the list. -/
def CtlPc.removing : CtlPc → Prop
  | .remove _ _ _ _ => True
  | _ => False

namespace Dash

/-- While the dashboard runs, new_device puts no device into a plan that is not in the list
the dashboard has loaded. -/
def AddsKnown (d : Dash) (o : Oracle) : CtlPc → Prop
  | .add dir v (.cas c old _ _) => (d.sys.plans dir c).addr=old ∧ o.spurious=false →
      d.pc.snap.all (·.live v)=true
  | _ => True

/-- The dashboard is kept apart from the edits of the plans, and so are the two writers. -/
def Undisturbed (d : Dash) : DashAct → Prop
  | .sys a => d.sys.Separated a ∧ match a with
      | .ctl o => d.AddsKnown o d.sys.ctl
      | _ => True
  | .refresh => ¬d.sys.ctl.removing
  | .next => True

end Dash

instance (pc : CtlPc) : Decidable pc.removing :=
  match pc with
  | .remove _ _ _ _ => isTrue trivial
  | .idle | .newCheck _ _ | .newLoad _ _ | .newCas _ _ _ _ | .add _ _ _ | .dstFind _
  | .unlink _ _ _ | .dstLoad _ _ | .dstCas _ _ _ _ | .uninstall _ _ => isFalse id

instance (d : Dash) (o : Oracle) (pc : CtlPc) : Decidable (d.AddsKnown o pc) :=
  match pc with
  | .add dir v (.cas c old _ _) => inferInstanceAs (Decidable
      ((d.sys.plans dir c).addr=old ∧ o.spurious=false → d.pc.snap.all (·.live v)=true))
  | .add _ _ (.search _ _ _) | .add _ _ (.lookup _) | .add _ _ (.load _) | .add _ _ (.mapWrite _)
  | .remove _ _ _ _ | .idle | .newCheck _ _ | .newLoad _ _ | .newCas _ _ _ _ | .dstFind _
  | .unlink _ _ _ | .dstLoad _ _ | .dstCas _ _ _ _ | .uninstall _ _ => isTrue trivial

instance (d : Dash) (a : DashAct) : Decidable (d.Undisturbed a) :=
  match a with
  | .sys (.ctl o) => inferInstanceAs (Decidable (_ ∧ d.AddsKnown o d.sys.ctl))
  | .sys (.slow o) => inferInstanceAs (Decidable (d.sys.Separated (.slow o) ∧ True))
  | .sys (.newDevice _) | .sys (.destroyDevice _) | .sys (.issue _) | .sys (.ethPoll _ _)
  | .sys (.ethLoad _) | .sys (.ethNext _) => isTrue ⟨trivial,trivial⟩
  | .refresh => inferInstanceAs (Decidable (¬d.sys.ctl.removing))
  | .next => isTrue trivial

namespace Sys

section
variable {cfg : Config} {s t : Sys}

theorem PlanInv.planned_live (h : s.PlanInv cfg) (hr : ¬s.ctl.removing) {dir : Dir} {i : Nat}
    (hi : i < cfg.cores dir) {v : Vid} (hv : v∈(s.planOf dir i).entries) :
    s.table.live v=true := by
  have hhome := h.home_of_mem hi hv
  have settled : s.ctl.stage dir v=.settled → s.table.live v=true := by
    intro hst
    rw [home,hst] at hhome
    cases hl : s.table.live v with
    | true => rfl
    | false => simp [hl,Stage.home] at hhome
  cases hc : s.ctl with
  | add d u pc =>
    have hk := h.ctlOk
    rw [CtlOk,hc] at hk
    by_cases he : v=u
    · exact he ▸ hk.1
    · apply settled
      rw [hc]
      cases d <;> cases dir <;> simp [CtlPc.stage,he]
  | remove d u p pc =>
    rw [hc] at hr
    exact absurd trivial hr
  | _ =>
    apply settled
    rw [hc]
    cases dir <;> rfl

/-- What a write of the control thread can bring into a plan. -/
def Brings (s : Sys) (o : Oracle) (dir : Dir) (u : Vid) : Prop :=
  ∃ c old src new,s.ctl=.add dir u (.cas c old src new) ∧ (s.plans dir c).addr=old ∧
    o.spurious=false

theorem addStep_entries (h : s.PlanInv cfg) {o : Oracle} {d : Dir} {w : Vid} {pc : PlanPc}
    (hc : s.ctl=.add d w pc) (ht : s.addStep cfg o d w pc=some t) {dir : Dir} {i : Nat} {u : Vid}
    (hu : u∈(t.planOf dir i).entries) : u∈(s.planOf dir i).entries ∨ s.Brings o dir u := by
  cases pc with
  | search j best min =>
    simp only [addStep] at ht
    split at ht
    · split at ht <;> cases ht <;> exact Or.inl hu
    · split at ht <;> cases ht <;> exact Or.inl hu
  | lookup j => cases ht
  | load c =>
    simp only [addStep,loadCopy] at ht
    split at ht
    · cases ht
      exact Or.inl hu
    · split at ht <;> cases ht
      exact Or.inl hu
  | cas c old src new =>
    simp only [addStep,casPlan] at ht
    split at ht
    · next hcas =>
      have hk := h.ctlOk
      rw [CtlOk,hc] at hk
      obtain ⟨-,hlt,-,hsrc,hnew⟩ := hk
      have hroom := h.room (home_add_none hc (by simp)) hlt
      have ht' := Option.some.inj ht
      subst ht'
      rw [planOf_setPlan rfl] at hu
      split at hu
      · next hat =>
        obtain ⟨rfl,rfl⟩ := hat
        rw [hnew,hsrc,VhostPlan.append_entries _ _ hroom,List.mem_append] at hu
        rcases hu with hu | hu
        · exact Or.inl hu
        · rw [List.mem_singleton.mp hu]
          exact Or.inr ⟨_,_,_,_,hc,hcas⟩
      · exact Or.inl hu
    · cases ht
      exact Or.inl hu
  | mapWrite c =>
    cases d <;> cases ht <;> exact Or.inl hu

theorem removeStep_entries (h : s.PlanInv cfg) {o : Oracle} {d : Dir} {w : Vid} {p : DevPtr}
    {pc : PlanPc} (hc : s.ctl=.remove d w p pc) (ht : s.removeStep cfg o d w p pc=some t)
    {dir : Dir} {i : Nat} {u : Vid} (hu : u∈(t.planOf dir i).entries) :
    u∈(s.planOf dir i).entries := by
  cases pc with
  | search j best min => cases ht
  | lookup j =>
    simp only [removeStep] at ht
    split at ht
    · split at ht <;> cases ht <;> exact hu
    · cases ht
      exact hu
  | load c =>
    simp only [removeStep,loadCopy] at ht
    split at ht <;> cases ht
    exact hu
  | cas c old src new =>
    simp only [removeStep,casPlan] at ht
    split at ht
    · have hk := h.ctlOk
      rw [CtlOk,hc] at hk
      obtain ⟨-,hlt,hsel,hsrc,hnew⟩ := hk
      have ht' := Option.some.inj ht
      subst ht'
      rw [planOf_setPlan rfl] at hu
      split at hu
      · next hat =>
        obtain ⟨rfl,rfl⟩ := hat
        rw [hsrc] at hsel
        rw [hnew,hsrc,VhostPlan.remove_entries_mem _ _ (h.bound _ _ hlt) hsel] at hu
        exact List.mem_of_mem_erase hu
      · exact hu
    · cases ht
      exact hu
  | mapWrite c =>
    cases d <;> cases ht <;> exact hu

theorem unlinkStep_plans (v : Vid) (p : DevPtr) (pc : UnlinkPc) :
    (s.unlinkStep v p pc).plans=s.plans := by
  cases pc with
  | test =>
    simp only [unlinkStep]
    split <;> rfl
  | routeTest =>
    simp only [unlinkStep]
    split <;> rfl
  | _ => rfl

/-- The control thread brings into a plan only the vid that new_device adds. -/
theorem ctlStep_entries (h : s.PlanInv cfg) {L : VdevList} {o : Oracle}
    (ht : s.ctlStep cfg L o=some t) {dir : Dir} {i : Nat} {u : Vid}
    (hu : u∈(t.planOf dir i).entries) : u∈(s.planOf dir i).entries ∨ s.Brings o dir u := by
  have same : t.plans=s.plans → u∈(s.planOf dir i).entries ∨ s.Brings o dir u := by
    intro hp
    rw [planOf,hp] at hu
    exact Or.inl hu
  cases hc : s.ctl with
  | add d w pc =>
    simp only [ctlStep,hc] at ht
    exact addStep_entries h hc ht hu
  | remove d w p pc =>
    simp only [ctlStep,hc] at ht
    exact Or.inl (removeStep_entries h hc ht hu)
  | unlink v p pc =>
    simp only [ctlStep,hc] at ht
    apply same
    rw [← Option.some.inj ht,unlinkStep_plans]
  | dstLoad v p =>
    simp only [ctlStep,hc] at ht
    apply same
    split at ht
    · cases ht
      rfl
    · split at ht <;> cases ht <;> rfl
  | idle => simp [ctlStep,hc] at ht
  | uninstall v p =>
    simp only [ctlStep,hc] at ht
    apply same
    cases ht
    rfl
  | _ =>
    simp only [ctlStep,hc] at ht
    apply same
    split at ht <;> cases ht <;> rfl

theorem step_entries (h : s.PlanInv cfg) {a : Action} (ha : ∀ o,a≠.slow o)
    (ht : s.step cfg a=some t) {dir : Dir} {i : Nat} {u : Vid} (hu : u∈(t.planOf dir i).entries) :
    u∈(s.planOf dir i).entries ∨ ∃ o,a=.ctl o ∧ s.Brings o dir u := by
  cases a with
  | newDevice v =>
    obtain ⟨-,-,-,rfl⟩ := step_newDevice ht
    exact Or.inl hu
  | destroyDevice v =>
    obtain ⟨-,-,rfl⟩ := step_destroyDevice ht
    exact Or.inl hu
  | ctl o =>
    obtain ⟨L,-,hs⟩ := Option.bind_eq_some_iff.mp ht
    exact (ctlStep_entries h hs hu).imp_right fun hb => ⟨o,rfl,hb⟩
  | slow o => exact absurd rfl (ha o)
  | issue m =>
    cases ht
    exact Or.inl hu
  | ethPoll c frames =>
    obtain ⟨-,rfl⟩ := step_ethPoll ht
    exact Or.inl hu
  | ethLoad c =>
    obtain ⟨frames,-,rfl⟩ := step_ethLoad ht
    exact Or.inl hu
  | ethNext c =>
    obtain ⟨snap,frames,-,rfl | rfl⟩ := step_ethNext ht <;> exact Or.inl hu

end

end Sys

namespace Dash

def Covers (cfg : Config) (s : Sys) (L : VdevList) : Prop :=
  ∀ dir,∀ i < cfg.cores dir,∀ v∈(s.planOf dir i).entries,L.live v=true

/-- The list the dashboard holds covers the plans, and what it has read from one is in that
list. -/
structure Inv (cfg : Config) (d : Dash) : Prop where
  plan : d.sys.PlanInv cfg
  alive : d.pc≠.crashed
  covers : ∀ L,d.pc.snap=some L → Covers cfg d.sys L
  pending : ∀ L vs todo,d.pc=.row L vs todo → ∀ v∈vs,L.live v=true
  todo : ∀ x∈d.pc.todo,x.2 < cfg.cores x.1

section
variable {cfg : Config} {d e : Dash}

theorem init_inv (cfg : Config) : Inv cfg (init cfg) := by
  refine ⟨Sys.init_inv cfg,by simp [init],?_,?_,?_⟩
  · intro L hL
    cases hL
  · intro L vs todo hpc
    cases hpc
  · intro x hx
    cases hx

theorem mem_dashRows {x : Dir × Nat} (h : x∈dashRows cfg) : x.2 < cfg.cores x.1 := by
  obtain ⟨dir,-,hx⟩ := List.mem_flatMap.mp h
  obtain ⟨i,hi,rfl⟩ := List.mem_map.mp hx
  exact List.mem_range.mp hi

theorem Inv.other (h : Inv cfg d) {a : Action} {s : Sys} (ha : ∀ o,a≠.slow o)
    (hg : d.Undisturbed (.sys a)) (ht : d.sys.step cfg a=some s) : Inv cfg {d with sys:=s} := by
  refine ⟨Sys.step_inv h.plan hg.1 ht,h.alive,?_,h.pending,h.todo⟩
  intro L hL dir i hi v hv
  rcases Sys.step_entries h.plan ha ht hv with hv | ⟨o,rfl,c,old,src,new,hc,hcas⟩
  · exact h.covers L hL dir i hi v hv
  · have hadds := hg.2
    simp only [AddsKnown,hc] at hadds
    have hall := hadds hcas
    have hL' : d.pc.snap=some L := hL
    rw [hL'] at hall
    exact hall

theorem Inv.sys (h : Inv cfg d) {a : Action} (hg : d.Undisturbed (.sys a))
    (he : d.step cfg (.sys a)=some e) : Inv cfg e := by
  by_cases ha : ∃ o,a=.slow o
  · obtain ⟨o,rfl⟩ := ha
    simp only [step] at he
    split at he
    · next hpc =>
      obtain ⟨s,hs,rfl⟩ := Option.map_eq_some_iff.mp he
      refine ⟨Sys.step_inv h.plan hg.1 hs,h.alive,?_,h.pending,h.todo⟩
      intro L hL
      have hL' : d.pc.snap=some L := hL
      rw [hpc] at hL'
      cases hL'
    · cases he
  · have ha' : ∀ o,a≠.slow o := fun o ho => ha ⟨o,ho⟩
    have hs : ∃ s,d.sys.step cfg a=some s ∧ {d with sys:=s}=e := by
      cases a with
      | slow o => exact absurd rfl (ha' o)
      | _ =>
        simp only [step] at he
        split at he
        · cases he
        · exact Option.map_eq_some_iff.mp he
    obtain ⟨s,hs,rfl⟩ := hs
    exact h.other ha' hg hs

theorem Inv.refresh (h : Inv cfg d) (hg : d.Undisturbed .refresh)
    (he : d.step cfg .refresh=some e) : Inv cfg e := by
  simp only [step] at he
  split at he
  · obtain ⟨L,hL,rfl⟩ := Option.map_eq_some_iff.mp he
    refine ⟨h.plan,by simp,?_,by simp,?_⟩
    · intro L' hL' dir i hi v hv
      cases hL'
      rw [← Sys.table_some hL]
      exact h.plan.planned_live hg hi hv
    · intro x hx
      exact mem_dashRows hx
  · cases he

theorem Inv.next (h : Inv cfg d) (he : d.step cfg .next=some e) : Inv cfg e := by
  cases hpc : d.pc with
  | idle => simp [step,hpc] at he
  | crashed => exact absurd hpc h.alive
  | rows L todo =>
    have hcovers := h.covers L (by rw [hpc]; rfl)
    have htodo := h.todo
    rw [hpc] at htodo
    cases todo with
    | nil =>
      simp only [step,hpc] at he
      cases he
      exact ⟨h.plan,by simp,by simp [DashPc.snap],by simp,by simp [DashPc.todo]⟩
    | cons x todo =>
      simp only [step,hpc] at he
      cases he
      refine ⟨h.plan,by simp,?_,?_,?_⟩
      · intro L' hL'
        cases hL'
        exact hcovers
      · intro L' vs todo' hrow v hv
        cases hrow
        have hv' : v∈(d.sys.planOf x.1 x.2).entries := (List.mem_append.mp hv).elim id id
        exact hcovers x.1 x.2 (htodo x List.mem_cons_self) v hv'
      · intro y hy
        exact htodo y (List.mem_cons_of_mem _ hy)
  | row L vs todo =>
    have hcovers := h.covers L (by rw [hpc]; rfl)
    have hpending := h.pending L vs todo hpc
    have htodo := h.todo
    rw [hpc] at htodo
    cases vs with
    | nil =>
      simp only [step,hpc] at he
      cases he
      refine ⟨h.plan,by simp,?_,by simp,htodo⟩
      intro L' hL'
      cases hL'
      exact hcovers
    | cons v vs =>
      have hlive := hpending v List.mem_cons_self
      obtain ⟨p,hp⟩ := Option.isSome_iff_exists.mp hlive
      simp only [step,hpc,hp] at he
      cases he
      refine ⟨h.plan,by simp,?_,?_,htodo⟩
      · intro L' hL'
        cases hL'
        exact hcovers
      · intro L' vs' todo' hrow u hu
        cases hrow
        exact hpending u (List.mem_cons_of_mem _ hu)

end

/-- In every run in which the two writers of the plans are kept apart, the dashboard does not
load the list while destroy_device is taking a device out of the plans, and no device it does
not know is put into a plan while it runs: it never dereferences an entry that is NULL, and
what it has still to look up is in its list. -/
theorem dashboard_coherent (cfg : Config) (d : Dash)
    (h : Reaches (step cfg) Undisturbed (init cfg) d) :
    d.pc≠.crashed ∧ ∀ L vs todo,d.pc=.row L vs todo → ∀ v∈vs,L.vdevs v≠none := by
  have hinv : Inv cfg d := by
    apply h.invariant (init_inv cfg)
    intro d e a hi hg he
    cases a with
    | sys a => exact hi.sys hg he
    | refresh => exact hi.refresh hg he
    | next => exact hi.next he
  refine ⟨hinv.alive,?_⟩
  intro L vs todo hpc v hv hnone
  have hlive := hinv.pending L vs todo hpc v hv
  rw [VdevList.live,hnone] at hlive
  cases hlive

/-- Startup, a device, and a refresh of the dashboard with its three rows. -/
def refreshOneDevice : List DashAct :=
  (slowSteps 10 3 0++.newDevice 5::ctlSteps 20 14).map .sys++.refresh::List.replicate 11 .next

theorem dashboard_coherent_refreshOneDevice : ∃ d,
    Reaches (step smallConfig) Undisturbed (init smallConfig) d ∧ d.shown=[-1,-1,-1,-1] ∧
      d.pc≠.crashed := by
  have hrun : (guardedRun (step smallConfig) Undisturbed (init smallConfig) refreshOneDevice).map
      Dash.shown=some [-1,-1,-1,-1] := by decide +kernel
  obtain ⟨d,hd,hshown⟩ := exists_reaches_of_guardedRun _ _ hrun
  exact ⟨d,hd,hshown,(dashboard_coherent smallConfig d hd).1⟩

/-- The dashboard loads the empty list, then new_device publishes device 5 and puts it into
the rx plan, then the dashboard reads that plan. -/
def refreshThenAdd : List DashAct :=
  (slowSteps 10 3 0).map .sys++.refresh::(.newDevice 5::ctlSteps 20 8).map .sys++[.next,.next]

/-- destroy_device has published the list without device 5 when the dashboard loads it, and has
not come to the plans. -/
def refreshInRemoval : List DashAct :=
  (slowSteps 10 3 0++.newDevice 5::ctlSteps 20 14++.destroyDevice 5::ctlSteps 40 5).map .sys++
    [.refresh,.next,.next]

/-- In both cases it dereferences NULL. -/
theorem dashboard_crashes :
    (∃ d,run (step smallConfig) (init smallConfig) refreshThenAdd=some d ∧ d.pc=.crashed) ∧
    ∃ d,run (step smallConfig) (init smallConfig) refreshInRemoval=some d ∧ d.pc=.crashed := by
  have h₁ : (run (step smallConfig) (init smallConfig) refreshThenAdd).map
      (fun d => d.pc.isCrashed)=some true := by decide +kernel
  have h₂ : (run (step smallConfig) (init smallConfig) refreshInRemoval).map
      (fun d => d.pc.isCrashed)=some true := by decide +kernel
  obtain ⟨d,hd,hc⟩ := Option.map_eq_some_iff.mp h₁
  obtain ⟨e,he,hc'⟩ := Option.map_eq_some_iff.mp h₂
  exact ⟨⟨d,hd,DashPc.isCrashed_iff.mp hc⟩,e,he,DashPc.isCrashed_iff.mp hc'⟩

end Dash

end Umanet
