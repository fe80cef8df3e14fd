import Umanet.System.Threads
import Mathlib.Data.Fintype.Card

namespace Umanet

open Framework

/-- Between the publication of a new vdev_list and the core-map write that follows
it, the vid in question is in no state the slow path could reconstruct. The TX
plans are edited after the RX plans, so the RX window lies inside the TX window. -/
def CtlPc.editing : CtlPc → Dir → Prop
  | .add .rx _ _,_ => True
  | .add .tx _ _,dir => dir=.tx
  | .remove .rx _ _ _,_ => True
  | .remove .tx _ _ _,dir => dir=.tx
  | _,_ => False

/-- The slow path holds a vdev_list snapshot from which it rebuilds plans. -/
def SlowPc.rebuilding : SlowPc → Prop
  | .calcLoad _ _ _ => True
  | .calcBuild _ _ _ _ => True
  | .calcXchg _ _ _ _ => True
  | .calcFree _ _ _ _ => True
  | _ => False

/-- Where the core that serves a vid is to be found. -/
inductive Stage
  | settled
  | absent
  | at (core : Nat)
  | mapped

/-- The core of a vid at a stage, from its entry in vdev_list and its core map. -/
def Stage.home : Stage → Bool → Nat → Option Nat
  | .settled,true,c => some c
  | .settled,false,_ => none
  | .absent,_,_ => none
  | .at c,_,_ => some c
  | .mapped,_,c => some c

/-- The control thread's progress with vid u in one direction. -/
def CtlPc.stage : CtlPc → Dir → Vid → Stage
  | .add .rx v pc,.rx,u => if u=v then (match pc with | .mapWrite c => .at c | _ => .absent) else .settled
  | .add .rx v _,.tx,u => if u=v then .absent else .settled
  | .add .tx v pc,.tx,u => if u=v then (match pc with | .mapWrite c => .at c | _ => .absent) else .settled
  | .remove .rx v _ pc,.rx,u => if u=v then (match pc with | .mapWrite _ => .absent | _ => .mapped) else .settled
  | .remove .rx v _ _,.tx,u => if u=v then .mapped else .settled
  | .remove .tx v _ pc,.tx,u => if u=v then (match pc with | .mapWrite _ => .absent | _ => .mapped) else .settled
  | _,_,_ => .settled

/-- The control thread has taken vid u out of DPDK's set of running devices, or has
not put it there yet. -/
def CtlPc.handles : CtlPc → Vid → Prop
  | .add _ v _,u => u=v
  | .dstFind v,u => u=v
  | .unlink v _ _,u => u=v
  | .dstLoad v _,u => u=v
  | .dstCas v _ _ _,u => u=v
  | _,_ => False

namespace Sys

/-- The published list; before register_vhost_drivers nothing is published. -/
def table (s : Sys) : VdevList := s.list.getD .empty

/-- The core a vid belongs to: the core map's for a published device, and while the
control thread edits the plans what it has reached. -/
def home (s : Sys) (dir : Dir) (u : Vid) : Option Nat :=
  (s.ctl.stage dir u).home (s.table.live u) (s.coreMap dir u)

/-- vhost_tx_rings[v] has one consumer, and the RX side one poller: v is in at most
one core's plan, and once. -/
def SingleConsumer (cfg : Config) (s : Sys) : Prop :=
  ∀ dir (v : Vid),(∀ i,i < cfg.cores dir → (s.planOf dir i).entries.count v ≤ 1) ∧
    ∀ i j,i < cfg.cores dir → j < cfg.cores dir → v∈(s.planOf dir i).entries →
      v∈(s.planOf dir j).entries → i=j

instance (pc : CtlPc) (dir : Dir) : Decidable (pc.editing dir) :=
  match pc with
  | .add .rx _ _ => isTrue trivial
  | .add .tx _ _ => inferInstanceAs (Decidable (dir=.tx))
  | .remove .rx _ _ _ => isTrue trivial
  | .remove .tx _ _ _ => inferInstanceAs (Decidable (dir=.tx))
  | .idle | .newCheck _ _ | .newLoad _ _ | .newCas _ _ _ _ | .dstFind _ | .unlink _ _ _
  | .dstLoad _ _ | .dstCas _ _ _ _ | .uninstall _ _ => isFalse id

instance (pc : SlowPc) : Decidable pc.rebuilding :=
  match pc with
  | .calcLoad _ _ _ | .calcBuild _ _ _ _ | .calcXchg _ _ _ _ | .calcFree _ _ _ _ => isTrue trivial
  | .main _ | .loop | .deq _ | .msgs _ _ | .link _ _ _ _ _ | .calcStart _ => isFalse id

/-- What the control thread knows inside a plan edit: `sel` is what made it choose
the core, and no one else writes the plan before its CAS. -/
def PlanPcOk (cfg : Config) (s : Sys) (dir : Dir) (v : Vid) (sel : VhostPlan → Prop)
    (edit : VhostPlan → VhostPlan) : PlanPc → Prop
  | .search i best min =>
    (∀ c,best=some c → c < cfg.cores dir) ∧ (i=0 ∧ min=maxVhosts ∨ best.isSome)
  | .lookup i => ∀ j,j < i → j < cfg.cores dir → v∉(s.planOf dir j).entries
  | .load c => c < cfg.cores dir ∧ sel (s.planOf dir c)
  | .cas c _ src new => c < cfg.cores dir ∧ sel src ∧ src=s.planOf dir c ∧ new.plan=edit src
  | .mapWrite c => c < cfg.cores dir

def CtlOk (cfg : Config) (s : Sys) : Prop :=
  match s.ctl with
  | .newCheck v _ => s.table.live v=false
  | .newLoad v _ => s.table.live v=false
  | .newCas v p _ new => s.table.live v=false ∧ new=s.table.insert v p
  | .add dir v pc => s.table.live v=true ∧ s.PlanPcOk cfg dir v (fun _ => True) (·.append v) pc
  | .unlink v p _ => s.table.vdevs v=some p
  | .dstLoad v p => s.table.vdevs v=some p ∧ (s.devs p).ready=.safeRemove
  | .dstCas v p _ new =>
    s.table.vdevs v=some p ∧ (s.devs p).ready=.safeRemove ∧ new=s.table.remove v
  | .remove dir v _ pc =>
    s.table.live v=false ∧ s.PlanPcOk cfg dir v (v∈·.entries) (·.remove v) pc
  | _ => True

/-- What the slow path knows: its snapshot is current while it rebuilds, and the
rebuilt plan holds what the old one does. -/
def SlowOk (cfg : Config) (s : Sys) : Prop :=
  match s.slow with
  | .main _ => s.ctl=.idle ∧ s.table=.empty ∧ ∀ u,s.running u=false
  | .calcLoad dir snap _ | .calcFree dir snap _ _ => ¬s.ctl.editing dir ∧ snap=s.table
  | .calcBuild dir snap i act => ¬s.ctl.editing dir ∧ snap=s.table ∧ i < cfg.cores dir ∧
      ∀ u,act u=true → u∈(s.planOf dir i).entries ∧ snap.live u=true
  | .calcXchg dir snap i new => ¬s.ctl.editing dir ∧ snap=s.table ∧ i < cfg.cores dir ∧
      new.plan.num ≤ maxVhosts ∧
      ∀ u,new.plan.entries.count u=(s.planOf dir i).entries.count u
  | _ => True

/-- Every vid is in the plan of its home core, once, and in no other. -/
structure PlanInv (cfg : Config) (s : Sys) : Prop where
  part : ∀ dir i u,i < cfg.cores dir →
    (s.planOf dir i).entries.count u=if s.home dir u=some i then 1 else 0
  homeLt : ∀ dir u i,s.home dir u=some i → i < cfg.cores dir
  bound : ∀ dir i,i < cfg.cores dir → (s.planOf dir i).num ≤ maxVhosts
  owner : ∀ u,s.table.live u=true → s.running u=true ∨ s.ctl.handles u
  ctlOk : s.CtlOk cfg
  slowOk : s.SlowOk cfg

variable {cfg : Config} {s t : Sys}

theorem table_some {L : VdevList} (h : s.list=some L) : s.table=L := by simp [table,h]

theorem home_congr {dir : Dir} {u : Vid} (hst : t.ctl.stage dir u=s.ctl.stage dir u)
    (hl : t.table.live u=s.table.live u) (hm : t.coreMap dir u=s.coreMap dir u) :
    t.home dir u=s.home dir u := by
  simp only [home,hst,hl,hm]

/-- A core-map write settles one vid and leaves every other home as it is. -/
theorem home_mapWrite {dir : Dir} {v : Vid} {c : Nat}
    (hst : ∀ d u,¬(d=dir ∧ u=v) → t.ctl.stage d u=s.ctl.stage d u)
    (hset : t.ctl.stage dir v=.settled)
    (hv : (Stage.settled).home (s.table.live v) c=s.home dir v) (hl : t.list=s.list)
    (hm : t.coreMap=setCore s.coreMap dir v c) (d : Dir) (u : Vid) : t.home d u=s.home d u := by
  have htable : t.table=s.table := by simp only [table,hl]
  by_cases hu : d=dir ∧ u=v
  · obtain ⟨rfl,rfl⟩ := hu
    rw [← hv,home,hset,htable,hm]
    simp [setCore]
  · apply home_congr (hst d u hu)
    · rw [htable]
    · rw [hm]
      exact setCore_of_ne hu

theorem PlanInv.home_of_mem (h : s.PlanInv cfg) {dir : Dir} {v : Vid} {i : Nat}
    (hi : i < cfg.cores dir) (hv : v∈(s.planOf dir i).entries) : s.home dir v=some i := by
  have hc := List.count_pos_iff.mpr hv
  rw [h.part dir i v hi] at hc
  by_contra hn
  simp [hn] at hc

theorem PlanInv.singleConsumer (h : s.PlanInv cfg) : s.SingleConsumer cfg := by
  intro dir v
  refine ⟨fun i hi => ?_,fun i j hi hj hvi hvj => ?_⟩
  · rw [h.part dir i v hi]
    split <;> decide
  · exact Option.some.inj ((h.home_of_mem hi hvi).symm.trans (h.home_of_mem hj hvj))

theorem PlanInv.room (h : s.PlanInv cfg) {dir : Dir} {v : Vid} (hv : s.home dir v=none)
    {i : Nat} (hi : i < cfg.cores dir) : (s.planOf dir i).num < maxVhosts := by
  have hnd : (v::(s.planOf dir i).entries).Nodup := by
    rw [List.nodup_cons,List.nodup_iff_count_le_one]
    refine ⟨?_,fun u => ?_⟩
    · rw [← List.count_eq_zero,h.part dir i v hi]
      simp [hv]
    · rw [h.part dir i u hi]
      split <;> decide
  have hle := List.Nodup.length_le_card hnd
  rw [List.length_cons,VhostPlan.entries_length _ (h.bound dir i hi),Fintype.card_fin] at hle
  exact hle

theorem PlanInv.sameHome (h : s.PlanInv cfg) (hp : t.plans=s.plans)
    (hhome : ∀ dir u,t.home dir u=s.home dir u)
    (ho : ∀ u,t.table.live u=true → t.running u=true ∨ t.ctl.handles u)
    (hc : t.CtlOk cfg) (hs : t.SlowOk cfg) : t.PlanInv cfg := by
  have hpl : t.planOf=s.planOf := by
    funext dir i
    simp only [planOf,hp]
  have hh : t.home=s.home := by
    funext d u
    exact hhome d u
  exact ⟨by rw [hh,hpl]; exact h.part,by rw [hh]; exact h.homeLt,by rw [hpl]; exact h.bound,
    ho,hc,hs⟩

/-- The slow path's knowledge survives a control step that opens no window: what it
rebuilds is not what the control thread edits. -/
theorem SlowOk.frame (h : s.SlowOk cfg) (hl : t.list=s.list) (hs : t.slow=s.slow)
    (hp : ∀ dir,¬s.ctl.editing dir → t.plans dir=s.plans dir)
    (hn : ∀ pc,s.slow≠.main pc)
    (he : ∀ dir,t.ctl.editing dir → s.ctl.editing dir) : t.SlowOk cfg := by
  have ht : t.table=s.table := by simp [table,hl]
  have hpl : ∀ dir,¬s.ctl.editing dir → t.planOf dir=s.planOf dir := by
    intro dir hd
    funext i
    simp only [planOf,hp dir hd]
  unfold SlowOk at h ⊢
  rw [hs,ht]
  cases hw : s.slow with
  | main pc => exact absurd hw (hn pc)
  | calcLoad dir snap i =>
    rw [hw] at h
    exact ⟨fun e => h.1 (he _ e),h.2⟩
  | calcFree dir snap i old =>
    rw [hw] at h
    exact ⟨fun e => h.1 (he _ e),h.2⟩
  | calcBuild dir snap i act =>
    rw [hw] at h
    simp only [hpl dir h.1]
    exact ⟨fun e => h.1 (he _ e),h.2⟩
  | calcXchg dir snap i new =>
    rw [hw] at h
    simp only [hpl dir h.1]
    exact ⟨fun e => h.1 (he _ e),h.2⟩
  | _ => trivial

theorem PlanInv.notMain (h : s.PlanInv cfg) (hn : s.ctl≠.idle) (pc : MainPc) :
    s.slow≠.main pc := by
  intro hw
  have hk := h.slowOk
  rw [SlowOk,hw] at hk
  exact hn hk.1

/-- The control thread's knowledge survives a slow step that writes no plan it edits
and revives no unlinked device. -/
theorem CtlOk.frame (h : s.CtlOk cfg) (hl : t.list=s.list) (hc : t.ctl=s.ctl)
    (hp : ∀ dir,s.ctl.editing dir → t.plans dir=s.plans dir)
    (hd : ∀ p,(s.devs p).ready=.safeRemove → (t.devs p).ready=.safeRemove) : t.CtlOk cfg := by
  have ht : t.table=s.table := by simp [table,hl]
  have hpc : ∀ dir v sel edit pc,s.ctl.editing dir → s.PlanPcOk cfg dir v sel edit pc →
      t.PlanPcOk cfg dir v sel edit pc := by
    intro dir v sel edit pc he hk
    have hpl : t.planOf dir=s.planOf dir := by
      funext i
      simp only [planOf,hp dir he]
    cases pc <;> simpa only [PlanPcOk,hpl] using hk
  unfold CtlOk at h ⊢
  rw [hc,ht]
  cases hw : s.ctl with
  | add dir v pc =>
    rw [hw] at h
    exact ⟨h.1,hpc dir v _ _ pc (by rw [hw]; cases dir <;> simp [CtlPc.editing]) h.2⟩
  | remove dir v p pc =>
    rw [hw] at h
    exact ⟨h.1,hpc dir v _ _ pc (by rw [hw]; cases dir <;> simp [CtlPc.editing]) h.2⟩
  | dstLoad v p =>
    rw [hw] at h
    exact ⟨h.1,hd p h.2⟩
  | dstCas v p ver new =>
    rw [hw] at h
    exact ⟨h.1,hd p h.2.1,h.2.2⟩
  | _ =>
    rw [hw] at h
    exact h

theorem PlanInv.ctlMove (h : s.PlanInv cfg) (hn : s.ctl≠.idle)
    (hst : ∀ dir u,t.ctl.stage dir u=s.ctl.stage dir u)
    (hh : ∀ u,s.table.live u=true → s.ctl.handles u → t.ctl.handles u)
    (he : ∀ dir,t.ctl.editing dir → s.ctl.editing dir) (hc : t.CtlOk cfg) (hl : t.list=s.list)
    (hp : t.plans=s.plans) (hm : t.coreMap=s.coreMap) (hr : t.running=s.running)
    (hs : t.slow=s.slow) : t.PlanInv cfg := by
  have ht : t.table=s.table := by simp [table,hl]
  refine h.sameHome hp (fun dir u => home_congr (hst dir u) (by rw [ht]) (by rw [hm]))
    (fun u hu => ?_) hc (h.slowOk.frame hl hs (fun _ _ => by rw [hp]) (h.notMain hn) he)
  rw [ht] at hu
  rw [hr]
  exact (h.owner u hu).imp_right (hh u hu)

/-- A write of one plan that moves vid v in or out of core c and no other vid. -/
theorem PlanInv.edit (h : s.PlanInv cfg) {dir : Dir} {c : Nat} {v : Vid} {new : PlanCell}
    (hc : c < cfg.cores dir) (hp : t.plans=setPlan s.plans dir c new)
    (hb : new.plan.num ≤ maxVhosts)
    (hnew : ∀ u,new.plan.entries.count u=if t.home dir u=some c then 1 else 0)
    (hhome : ∀ d u,¬(d=dir ∧ u=v) → t.home d u=s.home d u)
    (hv : ∀ i,i≠c → s.home dir v≠some i ∧ t.home dir v≠some i)
    (ho : ∀ u,t.table.live u=true → t.running u=true ∨ t.ctl.handles u)
    (hctl : t.CtlOk cfg) (hslow : t.SlowOk cfg) : t.PlanInv cfg := by
  refine ⟨fun d i u hi => ?_,fun d u i hi => ?_,fun d i hi => ?_,ho,hctl,hslow⟩
  · rw [planOf_setPlan hp]
    by_cases hw : d=dir ∧ i=c
    · obtain ⟨rfl,rfl⟩ := hw
      simpa using hnew u
    · rw [if_neg hw,h.part d i u hi]
      by_cases hu : d=dir ∧ u=v
      · obtain ⟨rfl,rfl⟩ := hu
        have hic : i≠c := fun e => hw ⟨rfl,e⟩
        rw [if_neg (hv i hic).1,if_neg (hv i hic).2]
      · rw [hhome d u hu]
  · by_cases hu : d=dir ∧ u=v
    · obtain ⟨rfl,rfl⟩ := hu
      by_cases hic : i=c
      · exact hic ▸ hc
      · exact absurd hi (hv i hic).2
    · rw [hhome d u hu] at hi
      exact h.homeLt d u i hi
  · rw [planOf_setPlan hp]
    split
    · exact hb
    · exact h.bound d i hi

theorem home_add_none {dir : Dir} {v : Vid} {pc : PlanPc} (hc : s.ctl=.add dir v pc)
    (hpc : ∀ c,pc≠.mapWrite c) : s.home dir v=none := by
  have hst : s.ctl.stage dir v=.absent := by
    rw [hc]
    cases pc with
    | mapWrite c => exact absurd rfl (hpc c)
    | _ => cases dir <;> simp [CtlPc.stage]
  simp [home,hst,Stage.home]

theorem home_add_at {dir : Dir} {v : Vid} {c : Nat} (hc : s.ctl=.add dir v (.mapWrite c)) :
    s.home dir v=some c := by
  have hst : s.ctl.stage dir v=.at c := by
    rw [hc]
    cases dir <;> simp [CtlPc.stage]
  simp [home,hst,Stage.home]

/-- The two kinds of plan edit: where the control thread is, what made it choose a
plan, and what it does to the plan. -/
inductive PlanEdit (dir : Dir) (v : Vid) :
    (PlanPc → CtlPc) → (VhostPlan → Prop) → (VhostPlan → VhostPlan) → Prop
  | add : PlanEdit dir v (.add dir v) (fun _ => True) (·.append v)
  | remove (p : DevPtr) : PlanEdit dir v (.remove dir v p) (v∈·.entries) (·.remove v)

section
variable {dir : Dir} {v : Vid} {k : PlanPc → CtlPc} {sel : VhostPlan → Prop}
  {edit : VhostPlan → VhostPlan}

/-- Inside one plan edit only the vid's own stage in that direction moves. -/
theorem PlanEdit.stage_other (h : PlanEdit dir v k sel edit) (pc pc' : PlanPc) {d : Dir} {u : Vid}
    (hdu : ¬(d=dir ∧ u=v)) : (k pc).stage d u=(k pc').stage d u := by
  cases h <;> cases dir <;> cases d <;> simp_all [CtlPc.stage]

theorem PlanEdit.stage_same (h : PlanEdit dir v k sel edit) {pc pc' : PlanPc}
    (hpc : ∀ c,pc≠.mapWrite c) (hpc' : ∀ c,pc'≠.mapWrite c) (d : Dir) (u : Vid) :
    (k pc).stage d u=(k pc').stage d u := by
  by_cases hdu : d=dir ∧ u=v
  · obtain ⟨rfl,rfl⟩ := hdu
    cases pc with
    | mapWrite c => exact absurd rfl (hpc c)
    | _ => cases pc' with
      | mapWrite c => exact absurd rfl (hpc' c)
      | _ => cases h <;> cases d <;> rfl
  · exact h.stage_other pc pc' hdu

theorem PlanEdit.editing (h : PlanEdit dir v k sel edit) (pc pc' : PlanPc) {d : Dir}
    (hd : (k pc).editing d) : (k pc').editing d := by
  cases h <;> cases dir <;> exact hd

theorem PlanEdit.editing_self (h : PlanEdit dir v k sel edit) (pc : PlanPc) :
    (k pc).editing dir := by
  cases h <;> cases dir <;> simp [CtlPc.editing]

theorem PlanEdit.handles (h : PlanEdit dir v k sel edit) (pc pc' : PlanPc) {u : Vid}
    (hu : (k pc).handles u) : (k pc').handles u := by
  cases h <;> exact hu

theorem PlanEdit.ne_idle (h : PlanEdit dir v k sel edit) (pc : PlanPc) : k pc≠.idle := by
  cases h <;> simp

theorem PlanEdit.pcOk (h : PlanEdit dir v k sel edit) {pc : PlanPc} (hc : s.ctl=k pc)
    (hk : s.CtlOk cfg) : s.PlanPcOk cfg dir v sel edit pc := by
  cases h <;> (rw [CtlOk,hc] at hk; exact hk.2)

theorem PlanEdit.ctlOk (h : PlanEdit dir v k sel edit) {pc pc' : PlanPc} (hc : s.ctl=k pc)
    (ht : t.ctl=k pc') (hl : t.list=s.list) (hk : s.CtlOk cfg)
    (hpc : t.PlanPcOk cfg dir v sel edit pc') : t.CtlOk cfg := by
  have htab : t.table=s.table := by simp [table,hl]
  cases h <;> (rw [CtlOk,hc] at hk; rw [CtlOk,ht,htab]; exact ⟨hk.1,hpc⟩)

/-- A move of the program counter inside one plan edit, before the core-map write. -/
theorem PlanEdit.move_inv (he : PlanEdit dir v k sel edit) (h : s.PlanInv cfg) {pc pc' : PlanPc}
    (hc : s.ctl=k pc) (hpc : ∀ c,pc≠.mapWrite c) (hpc' : ∀ c,pc'≠.mapWrite c)
    (ht : t.ctl=k pc') (hok : s.PlanPcOk cfg dir v sel edit pc')
    (hl : t.list=s.list := by rfl) (hp : t.plans=s.plans := by rfl)
    (hm : t.coreMap=s.coreMap := by rfl) (hr : t.running=s.running := by rfl)
    (hs : t.slow=s.slow := by rfl) : t.PlanInv cfg := by
  have hplan : t.planOf=s.planOf := by
    funext d i
    simp only [planOf,hp]
  refine h.ctlMove (hc ▸ he.ne_idle pc) (fun d u => ?_) (fun u _ hu => ?_)
    (fun d hd => ?_) (he.ctlOk hc ht hl h.ctlOk ?_) hl hp hm hr hs
  · rw [hc,ht]
    exact he.stage_same hpc' hpc d u
  · rw [hc] at hu
    rw [ht]
    exact he.handles pc pc' hu
  · rw [ht] at hd
    rw [hc]
    exact he.editing pc' pc hd
  · cases pc' <;> simpa only [PlanPcOk,hplan] using hok

/-- The CAS of an edit: v's home moves in or out of core c, and nothing else does. -/
theorem PlanEdit.cas_inv (he : PlanEdit dir v k sel edit) (h : s.PlanInv cfg) {c : Nat} {old : Ptr}
    {src : VhostPlan} {new : PlanCell} (hc : s.ctl=k (.cas c old src new))
    (hb : new.plan.num ≤ maxVhosts)
    (hv : ∀ i,i≠c → s.home dir v≠some i ∧ ((k (.mapWrite c)).stage dir v).home
      (s.table.live v) (s.coreMap dir v)≠some i)
    (hnew : ∀ u,new.plan.entries.count u=if u=v then
        (if ((k (.mapWrite c)).stage dir v).home (s.table.live v) (s.coreMap dir v)=some c
          then 1 else 0)
      else (s.planOf dir c).entries.count u) :
    PlanInv cfg {s with plans:=setPlan s.plans dir c new,ctl:=k (.mapWrite c)} := by
  have hpc := he.pcOk hc h.ctlOk
  let t : Sys := {s with plans:=setPlan s.plans dir c new,ctl:=k (.mapWrite c)}
  have hother : ∀ d u,¬(d=dir ∧ u=v) → t.home d u=s.home d u := by
    intro d u hdu
    have hst : t.ctl.stage d u=s.ctl.stage d u := by
      rw [hc]
      exact he.stage_other _ _ hdu
    exact home_congr hst rfl rfl
  refine PlanInv.edit (t:=t) h hpc.1 rfl hb (fun u => ?_) hother hv (fun u hu => ?_)
    (he.ctlOk (t:=t) hc rfl rfl h.ctlOk hpc.1) ?_
  · by_cases hu : u=v
    · subst hu
      rw [hnew u,if_pos rfl]
      rfl
    · rw [hnew u,if_neg hu,hother dir u (fun e => hu e.2),h.part dir c u hpc.1]
  · refine (h.owner u hu).imp_right fun hh => ?_
    rw [hc] at hh
    exact he.handles _ _ hh
  · refine h.slowOk.frame rfl rfl (fun d hd => ?_) (h.notMain (hc ▸ he.ne_idle _)) (fun d hd => ?_)
    · exact setPlan_of_ne (fun e => hd (e ▸ hc ▸ he.editing_self _))
    · rw [hc]
      exact he.editing _ _ hd

end

theorem addCas_inv (h : s.PlanInv cfg) {dir : Dir} {v : Vid} {c : Nat} {old : Ptr}
    {src : VhostPlan} {new : PlanCell} (hc : s.ctl=.add dir v (.cas c old src new)) :
    PlanInv cfg {s with plans:=setPlan s.plans dir c new,ctl:=.add dir v (.mapWrite c)} := by
  obtain ⟨hlt,-,rfl,hnew⟩ := PlanEdit.add.pcOk hc h.ctlOk
  have hnone : s.home dir v=none := home_add_none hc (fun _ => by simp)
  have hroom := h.room hnone hlt
  have hat : (CtlPc.add dir v (.mapWrite c)).stage dir v=.at c := by
    cases dir <;> simp [CtlPc.stage]
  refine PlanEdit.add.cas_inv h hc ?_ (fun i hi => ?_) (fun u => ?_)
  · rw [hnew]
    exact hroom
  · rw [hnone,hat]
    exact ⟨by simp,fun e => hi (Option.some.inj e).symm⟩
  · rw [hnew,VhostPlan.append_entries _ _ hroom,List.count_append]
    by_cases hu : u=v
    · subst hu
      have hz := h.part dir c u hlt
      rw [hnone] at hz
      simp [hz,hat,Stage.home]
    · simp [hu,Ne.symm hu]

/-- The core-map write of the add path settles the vid on the core the CAS put it on. -/
theorem addMap_inv (h : s.PlanInv cfg) {dir : Dir} {v : Vid} {c : Nat} {o : Oracle}
    (hc : s.ctl=.add dir v (.mapWrite c)) (ht : s.addStep cfg o dir v (.mapWrite c)=some t) :
    t.PlanInv cfg := by
  have hk := h.ctlOk
  rw [CtlOk,hc] at hk
  have hn : s.ctl≠.idle := by simp [hc]
  have hat := home_add_at hc
  have howner : ∀ u,s.table.live u=true → s.running u=true ∨ u=v := by
    intro u hu
    have ho := h.owner u hu
    rw [hc] at ho
    exact ho
  have hset : (Stage.settled).home (s.table.live v) c=some c := by rw [hk.1]; rfl
  cases dir with
  | rx =>
    have ht' := Option.some.inj ht
    subst ht'
    refine h.sameHome rfl (home_mapWrite (fun d u hu => ?_) ?_ (hset.trans hat.symm) rfl rfl) howner
      ⟨hk.1,by simp,Or.inl ⟨rfl,rfl⟩⟩
      (h.slowOk.frame rfl rfl (fun _ _ => rfl) (h.notMain hn) (fun _ _ => by rw [hc]; trivial))
    · rw [hc]
      cases d <;> simp_all [CtlPc.stage]
    · simp [CtlPc.stage]
  | tx =>
    have ht' := Option.some.inj ht
    subst ht'
    refine h.sameHome rfl (home_mapWrite (fun d u hu => ?_) ?_ (hset.trans hat.symm) rfl rfl)
      (fun u hu => ?_) trivial
      (h.slowOk.frame rfl rfl (fun _ _ => rfl) (h.notMain hn) (fun _ hd => hd.elim))
    · rw [hc]
      cases d <;> simp_all [CtlPc.stage]
    · simp [CtlPc.stage]
    · rcases howner u hu with hr | rfl
      · by_cases he : u=v
        · exact Or.inl (by simp [he])
        · exact Or.inl (by simpa [Function.update_of_ne he] using hr)
      · exact Or.inl (by simp)

theorem addStep_inv (h : s.PlanInv cfg) {dir : Dir} {v : Vid} {pc : PlanPc} {o : Oracle}
    (hc : s.ctl=.add dir v pc) (ht : s.addStep cfg o dir v pc=some t) : t.PlanInv cfg := by
  have hk := h.ctlOk
  rw [CtlOk,hc] at hk
  obtain ⟨hlive,hok⟩ := hk
  cases pc with
  | search i best min =>
    have hnone := home_add_none hc (fun _ => by simp)
    simp only [addStep] at ht
    by_cases hi : i < cfg.cores dir
    · rw [if_pos hi] at ht
      by_cases hmin : (s.plans dir i).plan.num < min
      · rw [if_pos hmin] at ht
        have ht' := Option.some.inj ht
        subst ht'
        refine PlanEdit.add.move_inv h hc (by simp) (by simp) rfl ⟨?_,Or.inr rfl⟩
        intro c e
        exact Option.some.inj e ▸ hi
      · rw [if_neg hmin] at ht
        have ht' := Option.some.inj ht
        subst ht'
        refine PlanEdit.add.move_inv h hc (by simp) (by simp) rfl ⟨hok.1,Or.inr ?_⟩
        rcases hok.2 with ⟨-,rfl⟩ | hb
        · exact absurd (h.room hnone hi) hmin
        · exact hb
    · rw [if_neg hi] at ht
      have hbest : best.isSome := by
        rcases hok.2 with ⟨rfl,-⟩ | hb
        · exact absurd (cfg.cores_pos dir) hi
        · exact hb
      obtain ⟨core,rfl⟩ := Option.isSome_iff_exists.mp hbest
      have ht' := Option.some.inj ht
      subst ht'
      exact PlanEdit.add.move_inv h hc (by simp) (by simp) rfl ⟨hok.1 core rfl,trivial⟩
  | lookup i => simp [addStep] at ht
  | load c =>
    have hnone := home_add_none hc (fun _ => by simp)
    have hroom : ¬(s.plans dir c).plan.num≥maxVhosts := Nat.not_le.mpr (h.room hnone hok.1)
    rw [addStep,if_neg hroom,loadCopy] at ht
    split at ht
    · simp at ht
    · have ht' := Option.some.inj ht
      subst ht'
      exact PlanEdit.add.move_inv h hc (by simp) (by simp) rfl ⟨hok.1,trivial,rfl,rfl⟩
  | cas c old src new =>
    have ht' := Option.some.inj ht
    subst ht'
    unfold casPlan
    split
    · exact addCas_inv h hc
    · exact PlanEdit.add.move_inv h hc (by simp) (by simp) rfl ⟨hok.1,trivial⟩
  | mapWrite c => exact addMap_inv h hc ht

theorem removeCas_inv (h : s.PlanInv cfg) {dir : Dir} {v : Vid} {p : DevPtr} {c : Nat} {old : Ptr}
    {src : VhostPlan} {new : PlanCell} (hc : s.ctl=.remove dir v p (.cas c old src new)) :
    PlanInv cfg {s with plans:=setPlan s.plans dir c new,ctl:=.remove dir v p (.mapWrite c)} := by
  obtain ⟨hlt,hv,rfl,hnew⟩ := (PlanEdit.remove p).pcOk hc h.ctlOk
  have hb := h.bound dir c hlt
  have hhome := h.home_of_mem hlt hv
  have habs : (CtlPc.remove dir v p (.mapWrite c)).stage dir v=.absent := by
    cases dir <;> simp [CtlPc.stage]
  have hr := ((s.planOf dir c).remove_removesOnly v hb).mpr hv
  refine (PlanEdit.remove p).cas_inv h hc ?_ (fun i hi => ?_) (fun u => ?_)
  · rw [hnew]
    exact hr.bound
  · rw [hhome,habs]
    exact ⟨fun e => hi (Option.some.inj e).symm,by simp [Stage.home]⟩
  · rw [hnew,VhostPlan.remove_entries_mem _ _ hb hv]
    by_cases hu : u=v
    · subst hu
      have hone := h.part dir c u hlt
      rw [if_pos hhome] at hone
      simp [habs,Stage.home,hone]
    · rw [if_neg hu,List.count_erase_of_ne hu]

/-- The core-map write of the remove path: the vid is gone from the list already. -/
theorem removeMap_inv (h : s.PlanInv cfg) {dir : Dir} {v : Vid} {p : DevPtr} {c : Nat} {o : Oracle}
    (hc : s.ctl=.remove dir v p (.mapWrite c))
    (ht : s.removeStep cfg o dir v p (.mapWrite c)=some t) : t.PlanInv cfg := by
  have hk := h.ctlOk
  rw [CtlOk,hc] at hk
  have hn : s.ctl≠.idle := by simp [hc]
  have howner : ∀ u,s.table.live u=true → s.running u=true := by
    intro u hu
    have ho := h.owner u hu
    rw [hc] at ho
    exact ho.resolve_right (fun e => e)
  have hset : (Stage.settled).home (s.table.live v) 0=s.home dir v := by
    have hs : s.home dir v=none := by
      cases dir <;> simp [home,hc,CtlPc.stage,Stage.home]
    rw [hk.1,hs]
    rfl
  cases dir with
  | rx =>
    have ht' := Option.some.inj ht
    subst ht'
    refine h.sameHome rfl (home_mapWrite (fun d u hu => ?_) ?_ hset rfl rfl)
      (fun u hu => Or.inl (howner u hu)) ⟨hk.1,fun j hj => absurd hj (Nat.not_lt_zero j)⟩
      (h.slowOk.frame rfl rfl (fun _ _ => rfl) (h.notMain hn) (fun _ _ => by rw [hc]; trivial))
    · rw [hc]
      cases d <;> simp_all [CtlPc.stage]
    · simp [CtlPc.stage]
  | tx =>
    have ht' := Option.some.inj ht
    subst ht'
    refine h.sameHome rfl (home_mapWrite (fun d u hu => ?_) ?_ hset rfl rfl)
      (fun u hu => Or.inl (howner u hu)) trivial
      (h.slowOk.frame rfl rfl (fun _ _ => rfl) (h.notMain hn) (fun _ hd => hd.elim))
    · rw [hc]
      cases d <;> simp_all [CtlPc.stage]
    · simp [CtlPc.stage]

theorem home_remove_some {dir : Dir} {v : Vid} {p : DevPtr} {pc : PlanPc}
    (hc : s.ctl=.remove dir v p pc) (hpc : ∀ c,pc≠.mapWrite c) :
    s.home dir v=some (s.coreMap dir v) := by
  have hst : s.ctl.stage dir v=.mapped := by
    rw [hc]
    cases pc with
    | mapWrite c => exact absurd rfl (hpc c)
    | _ => cases dir <;> simp [CtlPc.stage]
  simp [home,hst,Stage.home]

theorem removeStep_inv (h : s.PlanInv cfg) {dir : Dir} {v : Vid} {p : DevPtr} {pc : PlanPc}
    {o : Oracle} (hc : s.ctl=.remove dir v p pc) (ht : s.removeStep cfg o dir v p pc=some t) :
    t.PlanInv cfg := by
  have hok := (PlanEdit.remove p).pcOk hc h.ctlOk
  cases pc with
  | search i best min => simp [removeStep] at ht
  | lookup i =>
    simp only [removeStep] at ht
    by_cases hi : i < cfg.cores dir
    · rw [if_pos hi] at ht
      by_cases hv : v∈(s.plans dir i).plan.entries
      · rw [if_pos hv] at ht
        have ht' := Option.some.inj ht
        subst ht'
        exact (PlanEdit.remove p).move_inv h hc (by simp) (by simp) rfl ⟨hi,hv⟩
      · rw [if_neg hv] at ht
        have ht' := Option.some.inj ht
        subst ht'
        refine (PlanEdit.remove p).move_inv h hc (by simp) (by simp) rfl ?_
        intro j hj hjc
        rcases Nat.lt_succ_iff_lt_or_eq.mp hj with hlt | rfl
        · exact hok j hlt hjc
        · exact hv
    · have hhome := home_remove_some hc (fun _ => by simp)
      have hlt := h.homeLt dir v _ hhome
      have hone := h.part dir _ v hlt
      rw [if_pos hhome] at hone
      exact absurd (List.count_pos_iff.mp (by omega)) (hok _ (by omega) hlt)
  | load c =>
    rw [removeStep,loadCopy] at ht
    split at ht
    · simp at ht
    · have ht' := Option.some.inj ht
      subst ht'
      exact (PlanEdit.remove p).move_inv h hc (by simp) (by simp) rfl
        ⟨hok.1,hok.2,rfl,rfl⟩
  | cas c old src new =>
    have ht' := Option.some.inj ht
    subst ht'
    unfold casPlan
    split
    · exact removeCas_inv h hc
    · exact (PlanEdit.remove p).move_inv h hc (by simp) (by simp) rfl
        ⟨hok.1,hok.2.2.1 ▸ hok.2.1⟩
  | mapWrite c => exact removeMap_inv h hc ht

/-- The slow path knows nothing of list and plans outside its rebuilding. -/
theorem SlowOk.outside (hn : ∀ pc,s.slow≠.main pc) (hr : ¬s.slow.rebuilding) : s.SlowOk cfg := by
  unfold SlowOk
  cases hw : s.slow with
  | main pc => exact absurd hw (hn pc)
  | calcLoad dir snap i => exact absurd (by rw [hw]; trivial) hr
  | calcBuild dir snap i act => exact absurd (by rw [hw]; trivial) hr
  | calcXchg dir snap i new => exact absurd (by rw [hw]; trivial) hr
  | calcFree dir snap i old => exact absurd (by rw [hw]; trivial) hr
  | _ => trivial

theorem newPublish_inv (h : s.PlanInv cfg) {v : Vid} {p : DevPtr} {ver n : Nat} {new : VdevList}
    (hc : s.ctl=.newCas v p ver new) (hr : ¬s.slow.rebuilding) :
    PlanInv cfg {s with list:=some new,listVer:=n,ctl:=.add .rx v (.search 0 none maxVhosts)} := by
  have hk := h.ctlOk
  rw [CtlOk,hc] at hk
  obtain ⟨hdead,rfl⟩ := hk
  have hn := h.notMain (by simp [hc])
  have hlive : ∀ u,(s.table.insert v p).live u=if u=v then true else s.table.live u :=
    fun u => VdevList.live_insert _ v u p
  refine h.sameHome rfl (fun d u => ?_) (fun u hu => ?_) ⟨?_,by simp,Or.inl ⟨rfl,rfl⟩⟩
    (SlowOk.outside hn hr)
  · by_cases hu : u=v
    · subst hu
      have hs : s.home d u=none := by simp [home,hc,CtlPc.stage,hdead,Stage.home]
      rw [hs]
      cases d <;> simp [home,CtlPc.stage,Stage.home]
    · refine home_congr ?_ ((hlive u).trans (if_neg hu)) rfl
      rw [hc]
      cases d <;> simp [CtlPc.stage,hu]
  · have hu' := (hlive u).symm.trans hu
    by_cases he : u=v
    · exact Or.inr he
    · rw [if_neg he] at hu'
      have ho := h.owner u hu'
      rw [hc] at ho
      exact Or.inl (ho.resolve_right (fun e => e))
  · exact (hlive v).trans (if_pos rfl)

theorem destroyPublish_inv (h : s.PlanInv cfg) {v : Vid} {p : DevPtr} {ver n : Nat}
    {new : VdevList} (hc : s.ctl=.dstCas v p ver new) (hr : ¬s.slow.rebuilding) :
    PlanInv cfg {s with list:=some new,listVer:=n,ctl:=.remove .rx v p (.lookup 0)} := by
  have hk := h.ctlOk
  rw [CtlOk,hc] at hk
  obtain ⟨hv,-,rfl⟩ := hk
  have hn := h.notMain (by simp [hc])
  have hlive : ∀ u,(s.table.remove v).live u=if u=v then false else s.table.live u :=
    fun u => VdevList.live_remove _ v u
  have hvl : s.table.live v=true := by simp [VdevList.live,hv]
  refine h.sameHome rfl (fun d u => ?_) (fun u hu => ?_)
    ⟨(hlive v).trans (if_pos rfl),fun j hj => absurd hj (Nat.not_lt_zero j)⟩
    (SlowOk.outside hn hr)
  · by_cases hu : u=v
    · subst hu
      have hs : s.home d u=some (s.coreMap d u) := by
        simp [home,hc,CtlPc.stage,hvl,Stage.home]
      rw [hs]
      cases d <;> simp [home,CtlPc.stage,Stage.home]
    · refine home_congr ?_ ((hlive u).trans (if_neg hu)) rfl
      rw [hc]
      cases d <;> simp [CtlPc.stage,hu]
  · have hu' := (hlive u).symm.trans hu
    by_cases he : u=v
    · simp [he] at hu'
    · rw [if_neg he] at hu'
      have ho := h.owner u hu'
      rw [hc] at ho
      exact Or.inl (ho.resolve_right he)

theorem PlanInv.quietMove (h : s.PlanInv cfg) {c : CtlPc} (hc : s.ctl=c)
    (hh : ∀ u,s.table.live u=true → c.handles u → t.ctl.handles u) (hk : t.CtlOk cfg)
    (hn : c≠.idle := by simp) (hq : ∀ dir u,c.stage dir u=.settled := by exact fun _ _ => rfl)
    (hq' : ∀ dir u,t.ctl.stage dir u=.settled := by exact fun _ _ => rfl)
    (he : ∀ dir,¬t.ctl.editing dir := by exact fun _ => id) (hl : t.list=s.list := by rfl)
    (hp : t.plans=s.plans := by rfl) (hm : t.coreMap=s.coreMap := by rfl)
    (hr : t.running=s.running := by rfl) (hs : t.slow=s.slow := by rfl) : t.PlanInv cfg := by
  subst hc
  exact h.ctlMove hn (fun dir u => (hq' dir u).trans (hq dir u).symm) hh
    (fun dir hd => absurd hd (he dir)) hk hl hp hm hr hs

theorem unlinkStep_inv (h : s.PlanInv cfg) {v : Vid} {p : DevPtr} {pc : UnlinkPc}
    (hc : s.ctl=.unlink v p pc) : (s.unlinkStep v p pc).PlanInv cfg := by
  have hk := h.ctlOk
  rw [CtlOk,hc] at hk
  cases pc with
  | test =>
    simp only [unlinkStep]
    split
    · exact h.quietMove hc (fun _ _ hu => hu) hk
    · exact h.quietMove hc (fun _ _ hu => hu) hk
  | routeTest =>
    simp only [unlinkStep]
    split
    · exact h.quietMove hc (fun _ _ hu => hu) hk
    · exact h.quietMove hc (fun _ _ hu => hu) hk
  | mark =>
    refine h.quietMove hc (fun _ _ hu => hu) ?_
    exact ⟨hk,by simp [unlinkStep,setDev,VhostDev.setReady]⟩
  | _ => exact h.quietMove hc (fun _ _ hu => hu) hk

/-- The control thread publishes a list only while the slow path is not rebuilding
plans from an older one. -/
def PublishAlone (s : Sys) (o : Oracle) : CtlPc → Prop
  | .newCas _ _ ver _ => s.listVer=ver ∧ o.spurious=false → ¬s.slow.rebuilding
  | .dstCas _ _ ver _ => s.listVer=ver ∧ o.spurious=false → ¬s.slow.rebuilding
  | _ => True

/-- The slow path starts to rebuild plans only while the control thread edits none of
them, and does not relink a device that is unlinked. -/
def RebuildAlone (s : Sys) : SlowPc → Prop
  | .calcStart dir => ¬s.ctl.editing dir
  | .link _ _ p _ .ready => (s.devs p).ready≠.safeRemove
  | _ => True

def Separated (s : Sys) : Action → Prop
  | .ctl o => s.PublishAlone o s.ctl
  | .slow _ => s.RebuildAlone s.slow
  | _ => True

instance (s : Sys) (o : Oracle) (pc : CtlPc) : Decidable (s.PublishAlone o pc) :=
  match pc with
  | .newCas _ _ ver _ | .dstCas _ _ ver _ =>
    inferInstanceAs (Decidable (s.listVer=ver ∧ o.spurious=false → ¬s.slow.rebuilding))
  | .idle | .newCheck _ _ | .newLoad _ _ | .add _ _ _ | .dstFind _ | .unlink _ _ _
  | .dstLoad _ _ | .remove _ _ _ _ | .uninstall _ _ => isTrue trivial

instance (s : Sys) (pc : SlowPc) : Decidable (s.RebuildAlone pc) :=
  match pc with
  | .calcStart dir => inferInstanceAs (Decidable (¬s.ctl.editing dir))
  | .link _ _ p _ .ready => inferInstanceAs (Decidable ((s.devs p).ready≠.safeRemove))
  | .link _ _ _ _ .mac | .link _ _ _ _ .ip | .link _ _ _ _ .vmId | .link _ _ _ _ .routeTest
  | .link _ _ _ _ (.routeSet _) | .link _ _ _ _ .flowTest | .link _ _ _ _ .flowCreate
  | .main _ | .loop | .deq _ | .msgs _ _ | .calcLoad _ _ _ | .calcBuild _ _ _ _
  | .calcXchg _ _ _ _ | .calcFree _ _ _ _ => isTrue trivial

instance (s : Sys) (a : Action) : Decidable (s.Separated a) :=
  match a with
  | .ctl o => inferInstanceAs (Decidable (s.PublishAlone o s.ctl))
  | .slow _ => inferInstanceAs (Decidable (s.RebuildAlone s.slow))
  | .newDevice _ | .destroyDevice _ | .issue _ | .ethPoll _ _ | .ethLoad _ | .ethNext _ =>
    isTrue trivial

theorem ctlStep_inv (h : s.PlanInv cfg) {L : VdevList} {o : Oracle} (hg : s.Separated (.ctl o))
    (hl : s.list=some L) (ht : s.ctlStep cfg L o=some t) : t.PlanInv cfg := by
  have hk := h.ctlOk
  have htab := table_some hl
  cases hc : s.ctl with
  | idle => simp [ctlStep,hc] at ht
  | newCheck v p =>
    simp only [ctlStep,hc] at ht
    rw [CtlOk,hc] at hk
    split at ht <;> obtain rfl := Option.some.inj ht
    · exact h.quietMove hc (fun _ _ hu => hu) trivial
    · exact h.quietMove hc (fun _ _ hu => hu) hk
  | newLoad v p =>
    simp only [ctlStep,hc] at ht
    rw [CtlOk,hc] at hk
    split at ht <;> obtain rfl := Option.some.inj ht
    · exact h.quietMove hc (fun _ _ hu => hu) trivial
    · exact h.quietMove hc (fun _ _ hu => hu) ⟨hk,congrArg (·.insert v p) htab.symm⟩
  | newCas v p ver new =>
    simp only [ctlStep,hc] at ht
    rw [Separated,hc] at hg
    rw [CtlOk,hc] at hk
    split at ht <;> obtain rfl := Option.some.inj ht
    · exact newPublish_inv h hc (hg ‹_›)
    · exact h.quietMove hc (fun _ _ hu => hu) hk.1
  | add dir v pc =>
    simp only [ctlStep,hc] at ht
    exact addStep_inv h hc ht
  | dstFind v =>
    simp only [ctlStep,hc] at ht
    cases hv : L.vdevs v with
    | none =>
      rw [hv] at ht
      have ht' := Option.some.inj ht
      subst ht'
      refine h.quietMove hc (fun u hu hh => ?_) trivial
      have heq : u=v := hh
      subst heq
      simp [htab,VdevList.live,hv] at hu
    | some p =>
      rw [hv] at ht
      have ht' := Option.some.inj ht
      subst ht'
      refine h.quietMove hc (fun _ _ hu => hu) ?_
      exact (congrArg (·.vdevs v) htab).trans hv
  | unlink v p pc =>
    simp only [ctlStep,hc] at ht
    have ht' := Option.some.inj ht
    subst ht'
    exact unlinkStep_inv h hc
  | dstLoad v p =>
    rw [CtlOk,hc,htab] at hk
    simp only [ctlStep,hc,hk.1,hk.2,if_true] at ht
    have ht' := Option.some.inj ht
    subst ht'
    exact h.quietMove hc (fun _ _ hu => hu)
      ⟨(congrArg (·.vdevs v) htab).trans hk.1,hk.2,congrArg (·.remove v) htab.symm⟩
  | dstCas v p ver new =>
    simp only [ctlStep,hc] at ht
    rw [Separated,hc] at hg
    rw [CtlOk,hc] at hk
    split at ht <;> obtain rfl := Option.some.inj ht
    · exact destroyPublish_inv h hc (hg ‹_›)
    · exact h.quietMove hc (fun _ _ hu => hu) ⟨hk.1,hk.2.1⟩
  | remove dir v p pc =>
    simp only [ctlStep,hc] at ht
    exact removeStep_inv h hc ht
  | uninstall v p =>
    simp only [ctlStep,hc] at ht
    have ht' := Option.some.inj ht
    subst ht'
    exact h.quietMove hc (fun _ _ hu => hu) trivial

/-- A slow-path step that writes neither list, plans nor core map. -/
theorem PlanInv.slowMove (h : s.PlanInv cfg)
    (hd : ∀ p,(s.devs p).ready=.safeRemove → (t.devs p).ready=.safeRemove)
    (hs : t.SlowOk cfg) (hl : t.list=s.list := by rfl) (hp : t.plans=s.plans := by rfl)
    (hm : t.coreMap=s.coreMap := by rfl) (hr : t.running=s.running := by rfl)
    (hc : t.ctl=s.ctl := by rfl) : t.PlanInv cfg := by
  have ht : t.table=s.table := by simp [table,hl]
  refine h.sameHome hp (fun dir u => home_congr (by rw [hc]) (by rw [ht]) (by rw [hm])) ?_
    (h.ctlOk.frame hl hc (fun _ _ => by rw [hp]) hd) hs
  rw [ht,hr,hc]
  exact h.owner

theorem linkStep_inv (h : s.PlanInv cfg) {o : Oracle} {snap : VdevList} {ms : List LearnMsg}
    {p : DevPtr} {d : Data} {pc : LinkPc} (hg : s.Separated (.slow o))
    (hc : s.slow=.link snap ms p d pc) : (s.linkStep cfg o snap ms p d pc).PlanInv cfg := by
  have hdev : ∀ dev : VhostDev,((s.devs p).ready=.safeRemove → dev.ready=.safeRemove) → ∀ q,
      (s.devs q).ready=.safeRemove → ((s.setDev p dev).devs q).ready=.safeRemove := by
    intro dev hd q hq
    by_cases he : q=p
    · subst he
      simpa [setDev] using hd hq
    · simpa [setDev,Function.update_of_ne he] using hq
  cases pc with
  | mac => exact h.slowMove (hdev _ id) trivial
  | ip => exact h.slowMove (hdev _ (by simp)) trivial
  | vmId => exact h.slowMove (hdev _ (by simp)) trivial
  | routeTest =>
    simp only [linkStep]
    split
    · exact h.slowMove (fun _ => id) trivial
    · exact h.slowMove (fun _ => id) trivial
  | routeSet b => exact h.slowMove (fun _ => id) trivial
  | ready =>
    rw [Separated,hc] at hg
    exact h.slowMove (hdev _ (fun e => absurd e hg)) trivial
  | flowTest =>
    simp only [linkStep]
    split
    · exact h.slowMove (fun _ => id) trivial
    · exact h.slowMove (fun _ => id) trivial
  | flowCreate => exact h.slowMove (fun _ => id) trivial

theorem stage_of_not_editing {pc : CtlPc} {dir : Dir} (h : ¬pc.editing dir) (u : Vid) :
    pc.stage dir u=.settled := by
  cases pc with
  | add d v pc => cases d <;> cases dir <;> simp_all [CtlPc.editing,CtlPc.stage]
  | remove d v p pc => cases d <;> cases dir <;> simp_all [CtlPc.editing,CtlPc.stage]
  | _ => cases dir <;> rfl

/-- Outside the control thread's window the core map and the list tell where a vid is,
so a plan rebuilt from them holds what it held. -/
theorem calculatePlan_same (h : s.PlanInv cfg) {dir : Dir} {i : Nat} {act : Vid → Bool}
    (hi : i < cfg.cores dir) (hed : ¬s.ctl.editing dir)
    (hact : ∀ u,act u=true → u∈(s.planOf dir i).entries ∧ s.table.live u=true) (u : Vid) :
    (calculatePlan s.table (s.coreMap dir) i act).entries.count u=
      (s.planOf dir i).entries.count u := by
  have hhome : s.home dir u=some i ↔ s.table.live u=true ∧ s.coreMap dir u=i := by
    rw [home,stage_of_not_editing hed u]
    cases s.table.live u <;> simp [Stage.home]
  rw [calculatePlan_count,h.part dir i u hi]
  refine if_congr ?_ rfl rfl
  rw [hhome]
  constructor
  · rintro (ha | hp)
    · obtain ⟨hm,hl⟩ := hact u ha
      exact hhome.mp (h.home_of_mem hi hm)
    · simp only [probe,Bool.and_eq_true,decide_eq_true_eq] at hp
      exact ⟨hp.1.2,hp.2⟩
  · rintro ⟨hl,hm⟩
    cases ha : act u with
    | true => exact Or.inl rfl
    | false => exact Or.inr (by simp [probe,ha,hl,hm])

theorem exchange_inv (h : s.PlanInv cfg) {dir : Dir} {snap : VdevList} {i : Nat} {new : PlanCell}
    {old : Ptr} (hc : s.slow=.calcXchg dir snap i new) :
    PlanInv cfg {s with plans:=setPlan s.plans dir i new,slow:=.calcFree dir snap i old} := by
  have hk := h.slowOk
  rw [SlowOk,hc] at hk
  obtain ⟨hed,hsnap,hi,hb,hcount⟩ := hk
  let t : Sys := {s with plans:=setPlan s.plans dir i new,slow:=.calcFree dir snap i old}
  have hplan : ∀ d j,t.planOf d j=if d=dir ∧ j=i then new.plan else s.planOf d j :=
    planOf_setPlan rfl
  refine ⟨fun d j u hj => ?_,h.homeLt,fun d j hj => ?_,h.owner,?_,⟨hed,hsnap⟩⟩
  · refine Eq.trans ?_ (h.part d j u hj)
    rw [hplan]
    split
    · rename_i he
      rw [hcount,he.1,he.2]
    · rfl
  · rw [hplan]
    split
    · exact hb
    · exact h.bound d j hj
  · refine h.ctlOk.frame rfl rfl (fun d hd => ?_) (fun _ => id)
    exact setPlan_of_ne (fun e => hed (e ▸ hd))

theorem calcStep_inv (h : s.PlanInv cfg) {L : VdevList} {o : Oracle} {pc : SlowPc}
    (hg : s.Separated (.slow o)) (hl : s.list=some L) (hc : s.slow=pc)
    (ht : s.calcStep cfg L o pc=some t) : t.PlanInv cfg := by
  have hk := h.slowOk
  have htab := table_some hl
  cases pc with
  | calcStart dir =>
    rw [Separated,hc] at hg
    have ht' := Option.some.inj ht
    subst ht'
    exact h.slowMove (fun _ => id) ⟨hg,htab.symm⟩
  | calcLoad dir snap i =>
    rw [SlowOk,hc] at hk
    simp only [calcStep] at ht
    split at ht
    · rename_i hi
      have ht' := Option.some.inj ht
      subst ht'
      exact h.slowMove (fun _ => id)
        ⟨hk.1,hk.2,hi,fun u hu => scanPlan_active dir snap o.stats _ u hu⟩
    · cases dir <;> obtain rfl := Option.some.inj ht
      · exact h.slowMove (fun _ => id) trivial
      · exact h.slowMove (fun _ => id) trivial
  | calcBuild dir snap i act =>
    rw [SlowOk,hc] at hk
    obtain ⟨hed,rfl,hi,hact⟩ := hk
    simp only [calcStep] at ht
    split at ht
    · simp at ht
    · have ht' := Option.some.inj ht
      subst ht'
      have hb := (calculatePlan_entries s.table (s.coreMap dir) i act).2
      have hsame := calculatePlan_same h hi hed hact
      generalize calculatePlan s.table (s.coreMap dir) i act=new at hb hsame
      exact h.slowMove (fun _ => id) ⟨hed,rfl,hi,hb,hsame⟩
  | calcXchg dir snap i new =>
    have ht' := Option.some.inj ht
    subst ht'
    exact exchange_inv h hc
  | calcFree dir snap i old =>
    rw [SlowOk,hc] at hk
    have ht' := Option.some.inj ht
    subst ht'
    exact h.slowMove (fun _ => id) hk
  | _ => simp [calcStep] at ht

theorem mainStep_inv (h : s.PlanInv cfg) {pc : MainPc} (hc : s.slow=.main pc) :
    (s.mainStep pc).PlanInv cfg := by
  have hk := h.slowOk
  rw [SlowOk,hc] at hk
  cases pc with
  | startEth => exact h.slowMove (fun _ => id) hk
  | publishList =>
    have ht : (s.mainStep .publishList).table=s.table := hk.2.1.symm
    refine h.sameHome rfl (fun dir u => home_congr rfl (by rw [ht]) rfl) (fun u hu => ?_) ?_
      ⟨hk.1,rfl,hk.2.2⟩
    · rw [ht] at hu
      exact h.owner u hu
    · have hidle : (s.mainStep .publishList).ctl=.idle := hk.1
      rw [CtlOk,hidle]
      trivial
  | initRoute => exact h.slowMove (fun _ => id) trivial

theorem slowStep_inv (h : s.PlanInv cfg) {o : Oracle} (hg : s.Separated (.slow o))
    (ht : s.slowStep cfg o=some t) : t.PlanInv cfg := by
  cases hc : s.slow with
  | main pc =>
    simp only [slowStep,hc] at ht
    have ht' := Option.some.inj ht
    subst ht'
    exact mainStep_inv h hc
  | loop =>
    simp only [slowStep,hc] at ht
    obtain ⟨L,-,rfl⟩ := Option.map_eq_some_iff.mp ht
    exact h.slowMove (fun _ => id) trivial
  | deq snap =>
    simp only [slowStep,hc] at ht
    split at ht
    · have ht' := Option.some.inj ht
      subst ht'
      exact h.slowMove (fun _ => id) trivial
    · simp at ht
  | msgs snap ms =>
    cases ms with
    | nil =>
      simp only [slowStep,hc] at ht
      split at ht <;> obtain rfl := Option.some.inj ht
      · exact h.slowMove (fun _ => id) trivial
      · exact h.slowMove (fun _ => id) trivial
    | cons m ms =>
      simp only [slowStep,hc] at ht
      split at ht <;> obtain rfl := Option.some.inj ht
      · exact h.slowMove (fun _ => id) trivial
      · exact h.slowMove (fun _ => id) trivial
  | link snap ms p d pc =>
    simp only [slowStep,hc] at ht
    have ht' := Option.some.inj ht
    subst ht'
    exact linkStep_inv h hg hc
  | _ =>
    simp only [slowStep,hc] at ht
    obtain ⟨L,hl,hs⟩ := Option.bind_eq_some_iff.mp ht
    exact calcStep_inv h hg hl hc hs

theorem newDevice_inv (h : s.PlanInv cfg) {v : Vid} (ht : s.step cfg (.newDevice v)=some t) :
    t.PlanInv cfg := by
  obtain ⟨hidle,hn,hrun,rfl⟩ := step_newDevice ht
  have howner : ∀ u,s.table.live u=true → s.running u=true := by
    intro u hu
    have ho := h.owner u hu
    rw [hidle] at ho
    exact ho.resolve_right (fun e => e)
  have hdead : s.table.live v=false := by
    by_contra hv
    have hr := howner v (by simpa using hv)
    simp [hrun] at hr
  refine h.sameHome rfl (fun dir u => home_congr ?_ rfl rfl) (fun u hu => Or.inl (howner u hu))
    hdead (h.slowOk.frame rfl rfl (fun _ _ => rfl) hn (fun _ hd => hd.elim))
  rw [hidle]
  rfl

theorem destroyDevice_inv (h : s.PlanInv cfg) {v : Vid}
    (ht : s.step cfg (.destroyDevice v)=some t) : t.PlanInv cfg := by
  obtain ⟨hidle,hrun,rfl⟩ := step_destroyDevice ht
  have hn : ∀ pc,s.slow≠.main pc := by
    intro pc hw
    have hk := h.slowOk
    rw [SlowOk,hw] at hk
    simp [hk.2.2 v] at hrun
  refine h.sameHome rfl (fun dir u => home_congr ?_ rfl rfl) (fun u hu => ?_) trivial
    (h.slowOk.frame rfl rfl (fun _ _ => rfl) hn (fun _ hd => hd.elim))
  · rw [hidle]
    rfl
  · have ho := h.owner u hu
    rw [hidle] at ho
    by_cases he : u=v
    · exact Or.inr he
    · exact Or.inl (by simpa [Function.update_of_ne he] using ho.resolve_right (fun e => e))

theorem setEth_inv (h : s.PlanInv cfg) (c : Nat) (pc : EthPc) : (s.setEth c pc).PlanInv cfg :=
  ⟨h.part,h.homeLt,h.bound,h.owner,h.ctlOk,h.slowOk⟩

theorem step_inv (h : s.PlanInv cfg) {a : Action} (hg : s.Separated a)
    (ht : s.step cfg a=some t) : t.PlanInv cfg := by
  cases a with
  | newDevice v => exact newDevice_inv h ht
  | destroyDevice v => exact destroyDevice_inv h ht
  | ctl o =>
    obtain ⟨L,hl,hs⟩ := Option.bind_eq_some_iff.mp ht
    exact ctlStep_inv h hg hl hs
  | slow o => exact slowStep_inv h hg ht
  | issue m =>
    have ht' := Option.some.inj ht
    subst ht'
    exact ⟨h.part,h.homeLt,h.bound,h.owner,h.ctlOk,h.slowOk⟩
  | ethPoll c frames =>
    obtain ⟨-,rfl⟩ := step_ethPoll ht
    exact setEth_inv h _ _
  | ethLoad c =>
    obtain ⟨frames,-,rfl⟩ := step_ethLoad ht
    exact setEth_inv h _ _
  | ethNext c =>
    obtain ⟨snap,frames,-,rfl | rfl⟩ := step_ethNext ht
    · exact setEth_inv h _ _
    · exact setEth_inv h _ _

theorem init_inv (cfg : Config) : (Sys.init cfg).PlanInv cfg where
  part dir i u hi := by simp [planOf,Sys.init,home,CtlPc.stage,table,Stage.home]
  homeLt dir u i hi := by simp [Sys.init,home,CtlPc.stage,table,Stage.home] at hi
  bound dir i hi := by simp [planOf,Sys.init]
  owner u hu := by simp [table,Sys.init] at hu
  ctlOk := trivial
  slowOk := ⟨rfl,rfl,fun _ => rfl⟩

/-- With the two threads kept apart every vid has one consumer in each direction, in
every state of every run from process start. -/
theorem single_consumer_of_separated (cfg : Config) (s : Sys)
    (h : Reaches (Sys.step cfg) Sys.Separated (Sys.init cfg) s) : s.SingleConsumer cfg :=
  (h.invariant (I:=Sys.PlanInv cfg) (init_inv cfg) (fun hi hg ht => step_inv hi hg ht)).singleConsumer

/-- Startup, a first device, a pass of the plan calculation, and a second device. -/
def twoDevices : List Action :=
  slowSteps 10 3 0++.newDevice 0::ctlSteps 20 14++slowSteps 40 19 0++
    .newDevice 1::ctlSteps 60 14

theorem single_consumer_twoDevices :
    ∃ s,Reaches (Sys.step smallConfig) Sys.Separated (Sys.init smallConfig) s ∧
      ((s.planOf .tx 0).entries=[0] ∧ (s.planOf .tx 1).entries=[1]) ∧
      s.SingleConsumer smallConfig := by
  have h : (guardedRun (Sys.step smallConfig) Sys.Separated (Sys.init smallConfig) twoDevices).map
      (fun s => ((s.planOf .tx 0).entries,(s.planOf .tx 1).entries))=some ([0],[1]) := by
    decide +kernel
  obtain ⟨s,hr,he⟩ := exists_reaches_of_guardedRun _ _ h
  exact ⟨s,hr,Prod.mk.inj he,single_consumer_of_separated _ s hr⟩

/-- The second device is published and on TX core 1 while its core map still reads 0;
the slow path then rebuilds the plan of core 0. -/
def rebuildBeforeMapWrite : List Action :=
  slowSteps 10 3 0++.newDevice 0::ctlSteps 20 14++.newDevice 1::ctlSteps 40 13++
    slowSteps 60 14 0

/-- Two cores dequeue from vhost_tx_rings[1]. -/
theorem two_consumers_of_one_ring :
    ∃ s,Reaches (Sys.step smallConfig) anyStep (Sys.init smallConfig) s ∧
      (1 : Vid)∈(s.planOf .tx 0).entries ∧ (1 : Vid)∈(s.planOf .tx 1).entries ∧
      ¬s.SingleConsumer smallConfig := by
  have h : (guardedRun (Sys.step smallConfig) anyStep (Sys.init smallConfig)
      rebuildBeforeMapWrite).map
      (fun s => ((s.planOf .tx 0).entries,(s.planOf .tx 1).entries))=some ([0,1],[1]) := by
    decide +kernel
  obtain ⟨s,hr,he⟩ := exists_reaches_of_guardedRun _ _ h
  obtain ⟨h0,h1⟩ := Prod.mk.inj he
  have hm0 : (1 : Vid)∈(s.planOf .tx 0).entries := by rw [h0]; decide
  have hm1 : (1 : Vid)∈(s.planOf .tx 1).entries := by rw [h1]; decide
  refine ⟨s,hr,hm0,hm1,fun hsingle => ?_⟩
  exact absurd ((hsingle .tx 1).2 0 1 (by decide) (by decide) hm0 hm1) (by decide)

end Sys

end Umanet
