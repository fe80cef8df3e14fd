import Umanet.Framework.Refinement
import Umanet.System.Teardown

namespace Umanet

open Framework

/-- link_vmdq has not yet set the device ready. -/
def LinkPc.unready : LinkPc → Bool
  | .flowTest => false
  | .flowCreate => false
  | _ => true

def SlowPc.inBatch : SlowPc → Bool
  | .msgs _ _ => true
  | .link _ _ _ _ _ => true
  | _ => false

/-- unlink_vmdq is at work on device p. -/
def CtlPc.unlinks : CtlPc → DevPtr → Bool
  | .unlink _ q _,p => q=p
  | _,_ => false

namespace Sys

/-- The messages a step takes from slowpath_ring. -/
def takes (s : Sys) : Action → List LearnMsg
  | .slow o =>
    match s.slow with
    | .deq _ => s.slowRing.take o.num
    | _ => []
  | _ => []

/-- The messages a run takes from slowpath_ring, oldest first. -/
def taken (cfg : Config) (s : Sys) (as : List Action) : List LearnMsg :=
  trace (step cfg) takes s as

/-- VM v is there with device p, and destroy_device is not unlinking it. -/
def Connected (v : Vid) (p : DevPtr) (s : Sys) : Prop := s.Listed v p ∧ s.ctl.unlinks p=false

instance (v : Vid) (p : DevPtr) (s : Sys) : Decidable (Connected v p s) :=
  decidable_of_iff (s.list.bind (·.vdevs v)=some p ∧ s.ctl.unlinks p=false)
    (and_congr_left' Option.bind_eq_some_iff)

/-- The message waits behind k others, and a list the slow path has loaded already shows the
device. -/
def Queued (m : LearnMsg) (p : DevPtr) (k : Nat) (s : Sys) : Prop :=
  s.slowRing[k]?=some m ∧ ∀ snap,s.slow=.deq snap → snap.vdevs m.vid=some p

/-- The slow path has the message in its batch, or links the device. -/
def InHand (m : LearnMsg) (p : DevPtr) (s : Sys) : Prop :=
  match s.slow with
  | .msgs snap ms => m∈ms ∧ snap.vdevs m.vid=some p
  | .link snap ms q _ pc => (m∈ms ∧ snap.vdevs m.vid=some p) ∨ (q=p ∧ pc.unready=true)
  | _ => False

section
variable {cfg : Config} {s t : Sys} {p : DevPtr} {m : LearnMsg} {k : Nat}

theorem InHand.inBatch (h : s.InHand m p) : s.slow.inBatch=true := by
  simp only [InHand] at h
  split at h
  · next hpc => rw [hpc]; rfl
  · next hpc => rw [hpc]; rfl
  · exact h.elim

theorem setDev_ready {q : DevPtr} {dev : VhostDev} (h : dev.ready=(s.devs q).ready ∨ q≠p) :
    ((s.setDev q dev).devs p).ready=(s.devs p).ready := by
  change (Function.update s.devs q dev p).ready=_
  by_cases hq : p=q
  · subst hq
    rw [Function.update_self]
    exact h.resolve_right (fun hne => hne rfl)
  · rw [Function.update_of_ne hq]

theorem unlinkStep_ready {v : Vid} {q : DevPtr} (hq : q≠p) (pc : UnlinkPc) :
    (s.unlinkStep v q pc).slow=s.slow ∧ (s.unlinkStep v q pc).slowRing=s.slowRing ∧
      ((s.unlinkStep v q pc).devs p).ready=(s.devs p).ready ∧
      (s.unlinkStep v q pc).nextDev=s.nextDev := by
  cases pc with
  | test =>
    simp only [unlinkStep]
    split <;> exact ⟨rfl,rfl,rfl,rfl⟩
  | routeTest =>
    simp only [unlinkStep]
    split <;> exact ⟨rfl,rfl,rfl,rfl⟩
  | routeClear b => exact ⟨rfl,rfl,rfl,rfl⟩
  | clearMac => exact ⟨rfl,rfl,setDev_ready (.inr hq),rfl⟩
  | clearIp => exact ⟨rfl,rfl,setDev_ready (.inr hq),rfl⟩
  | mark => exact ⟨rfl,rfl,setDev_ready (.inr hq),rfl⟩

/-- The control thread leaves the ring alone, and the readiness of a device it does not
unlink. -/
theorem ctlStep_ready {L : VdevList} {o : Oracle} (hu : s.ctl.unlinks p=false)
    (h : s.ctlStep cfg L o=some t) :
    t.slow=s.slow ∧ t.slowRing=s.slowRing ∧ (t.devs p).ready=(s.devs p).ready ∧
      t.nextDev=s.nextDev := by
  have frame (hf : TableFrame s t ∧ t.slow=s.slow) :
      t.slow=s.slow ∧ t.slowRing=s.slowRing ∧ (t.devs p).ready=(s.devs p).ready ∧
        t.nextDev=s.nextDev :=
    ⟨hf.2,hf.1.slowRing,by rw [hf.1.devs],hf.1.nextDev⟩
  simp only [ctlStep] at h
  split at h
  · cases h
  · split at h <;> obtain rfl := Option.some.inj h <;> exact ⟨rfl,rfl,rfl,rfl⟩
  · split at h <;> obtain rfl := Option.some.inj h <;> exact ⟨rfl,rfl,rfl,rfl⟩
  · split at h <;> obtain rfl := Option.some.inj h <;> exact ⟨rfl,rfl,rfl,rfl⟩
  · exact frame ⟨(addStep_frame h).1,(addStep_frame h).2.1⟩
  · split at h <;> obtain rfl := Option.some.inj h <;> exact ⟨rfl,rfl,rfl,rfl⟩
  · next v q pc hpc =>
    obtain rfl := Option.some.inj h
    have hq : q≠p := by
      rw [hpc] at hu
      exact of_decide_eq_false hu
    exact unlinkStep_ready hq pc
  · split at h
    · obtain rfl := Option.some.inj h
      exact ⟨rfl,rfl,rfl,rfl⟩
    · split at h <;> obtain rfl := Option.some.inj h <;> exact ⟨rfl,rfl,rfl,rfl⟩
  · split at h <;> obtain rfl := Option.some.inj h <;> exact ⟨rfl,rfl,rfl,rfl⟩
  · exact frame ⟨(removeStep_frame h).1,(removeStep_frame h).2.1⟩
  · obtain rfl := Option.some.inj h
    exact ⟨rfl,rfl,rfl,rfl⟩

/-- The other threads only add to the ring, behind what waits there. -/
theorem step_others {a : Action} (ha : ∀ o,a≠.slow o) (hu : s.ctl.unlinks p=false)
    (hp : p < s.nextDev)
    (h : s.step cfg a=some t) :
    t.slow=s.slow ∧ s.slowRing<+:t.slowRing ∧ (t.devs p).ready=(s.devs p).ready ∧
      p < t.nextDev := by
  have same : s.slowRing<+:s.slowRing := List.prefix_rfl
  cases a with
  | newDevice v =>
    obtain ⟨-,-,-,rfl⟩ := step_newDevice h
    refine ⟨rfl,same,?_,Nat.lt_succ_of_lt hp⟩
    change (Function.update s.devs s.nextDev (.fresh v) p).ready=_
    rw [Function.update_of_ne (Nat.ne_of_lt hp)]
  | destroyDevice v =>
    obtain ⟨-,-,rfl⟩ := step_destroyDevice h
    exact ⟨rfl,same,rfl,hp⟩
  | ctl o =>
    obtain ⟨L,-,hL⟩ := Option.bind_eq_some_iff.mp h
    obtain ⟨hs,hr,hd,hn⟩ := ctlStep_ready hu hL
    exact ⟨hs,by rw [hr],hd,by rw [hn]; exact hp⟩
  | slow o => exact absurd rfl (ha o)
  | issue x =>
    obtain rfl := Option.some.inj h
    exact ⟨rfl,List.prefix_append _ _,rfl,hp⟩
  | ethPoll c frames =>
    obtain ⟨-,rfl⟩ := step_ethPoll h
    exact ⟨rfl,same,rfl,hp⟩
  | ethLoad c =>
    obtain ⟨_,-,rfl⟩ := step_ethLoad h
    exact ⟨rfl,same,rfl,hp⟩
  | ethNext c =>
    obtain ⟨_,_,-,rfl | rfl⟩ := step_ethNext h
    · exact ⟨rfl,same,rfl,hp⟩
    · exact ⟨rfl,same,rfl,hp⟩

theorem setDev_rx {q : DevPtr} {dev : VhostDev} (h : (s.devs q).ready=.rx → dev.ready=.rx)
    (hp : (s.devs p).ready=.rx) : ((s.setDev q dev).devs p).ready=.rx := by
  change (Function.update s.devs q dev p).ready=_
  by_cases hq : p=q
  · subst hq
    rw [Function.update_self]
    exact h hp
  · rw [Function.update_of_ne hq]
    exact hp

/-- Where a step of link_vmdq and install_eth_rx_flow leads: on in the same message, or to the
next one when the device is ready. -/
structure LinkMove (s t : Sys) (p : DevPtr) (snap : VdevList) (ms : List LearnMsg) (q : DevPtr)
    (d : Data) (pc : LinkPc) : Prop where
  nextDev : t.nextDev=s.nextDev
  ring : t.slowRing=s.slowRing
  keeps : (s.devs p).ready=.rx → (t.devs p).ready=.rx
  moves : (∃ pc',t.slow=.link snap ms q d pc' ∧
      (pc.unready=true → pc'.unready=true ∨ (t.devs q).ready=.rx)) ∨
    (t.slow=.msgs snap ms ∧ pc.unready=false)

theorem linkStep_move (o : Oracle) (snap : VdevList) (ms : List LearnMsg) (q : DevPtr) (d : Data)
    (pc : LinkPc) : LinkMove s (s.linkStep cfg o snap ms q d pc) p snap ms q d pc := by
  cases pc with
  | mac => exact ⟨rfl,rfl,setDev_rx id,.inl ⟨.ip,rfl,fun _ => .inl rfl⟩⟩
  | ip =>
    refine ⟨rfl,rfl,setDev_rx ?_,.inl ⟨.vmId,rfl,fun _ => .inl rfl⟩⟩
    rw [VhostDev.learnIp_ready]
    exact id
  | vmId =>
    refine ⟨rfl,rfl,setDev_rx ?_,.inl ⟨.routeTest,rfl,fun _ => .inl rfl⟩⟩
    rw [VhostDev.learnVmId_ready]
    exact id
  | routeTest =>
    simp only [linkStep]
    split
    · exact ⟨rfl,rfl,id,.inl ⟨.ready,rfl,fun _ => .inl rfl⟩⟩
    · exact ⟨rfl,rfl,id,.inl ⟨.routeSet _,rfl,fun _ => .inl rfl⟩⟩
  | routeSet b => exact ⟨rfl,rfl,id,.inl ⟨.ready,rfl,fun _ => .inl rfl⟩⟩
  | ready =>
    refine ⟨rfl,rfl,setDev_rx (fun _ => rfl),.inl ⟨.flowTest,rfl,fun _ => .inr ?_⟩⟩
    change (Function.update s.devs q _ q).ready=.rx
    rw [Function.update_self]
    rfl
  | flowTest =>
    simp only [linkStep]
    split
    · exact ⟨rfl,rfl,id,.inr ⟨rfl,rfl⟩⟩
    · exact ⟨rfl,rfl,id,.inl ⟨.flowCreate,rfl,fun h => by cases h⟩⟩
  | flowCreate => exact ⟨rfl,rfl,id,.inr ⟨rfl,rfl⟩⟩

/-- What a step of the slow path does to the ring, the devices and its own place. -/
inductive SlowMove (s t : Sys) (p : DevPtr) (o : Oracle) : Prop
  | load (L : VdevList) : s.slow=.loop → s.list=some L → t={s with slow:=.deq L} → SlowMove s t p o
  | dequeue (snap : VdevList) : s.slow=.deq snap →
      t={s with slow:=.msgs snap (s.slowRing.take o.num),slowRing:=s.slowRing.drop o.num} →
      SlowMove s t p o
  | skip (snap : VdevList) (x : LearnMsg) (ms : List LearnMsg) : s.slow=.msgs snap (x::ms) →
      snap.vdevs x.vid=none → t={s with slow:=.msgs snap ms} → SlowMove s t p o
  | link (snap : VdevList) (x : LearnMsg) (ms : List LearnMsg) (q : DevPtr) :
      s.slow=.msgs snap (x::ms) → snap.vdevs x.vid=some q →
      t={s with slow:=.link snap ms q x.data .mac} → SlowMove s t p o
  | inLink (snap : VdevList) (ms : List LearnMsg) (q : DevPtr) (d : Data) (pc : LinkPc) :
      s.slow=.link snap ms q d pc → LinkMove s t p snap ms q d pc → SlowMove s t p o
  | aside : (∀ snap,s.slow≠.deq snap) → (∀ m,¬s.InHand m p) → (∀ snap,t.slow≠.deq snap) →
      t.nextDev=s.nextDev → t.slowRing=s.slowRing → t.devs=s.devs → SlowMove s t p o

theorem calcStep_aside {L : VdevList} {o : Oracle} {pc : SlowPc} (hpc : s.slow=pc)
    (hb : pc.inBatch=false) (h : s.calcStep cfg L o pc=some t) : SlowMove s t p o := by
  obtain ⟨hf,-,hto⟩ := calcStep_frame h
  refine .aside ?_ ?_ ?_ hf.nextDev hf.slowRing hf.devs
  · intro snap hd
    rw [← hpc,hd] at h
    simp [calcStep] at h
  · intro m hm
    have hin := hm.inBatch
    rw [hpc,hb] at hin
    cases hin
  · intro snap hd
    rw [hd] at hto
    simp at hto

theorem slowStep_move {o : Oracle} (h : s.slowStep cfg o=some t) : SlowMove s t p o := by
  have idle {pc : SlowPc} (hpc : s.slow=pc) (hb : pc.inBatch=false) (m : LearnMsg) :
      ¬s.InHand m p := by
    intro hm
    have hin := hm.inBatch
    rw [hpc,hb] at hin
    cases hin
  cases hpc : s.slow with
  | main pc =>
    simp only [slowStep,hpc] at h
    obtain rfl := Option.some.inj h
    cases pc <;> exact .aside (by simp [hpc]) (idle hpc rfl) (by simp [mainStep]) rfl rfl rfl
  | loop =>
    simp only [slowStep,hpc] at h
    obtain ⟨L,hL,rfl⟩ := Option.map_eq_some_iff.mp h
    exact .load L hpc hL rfl
  | deq snap =>
    simp only [slowStep,hpc] at h
    split at h
    · obtain rfl := Option.some.inj h
      exact .dequeue snap hpc rfl
    · cases h
  | msgs snap ms =>
    cases ms with
    | nil =>
      simp only [slowStep,hpc] at h
      have hno (m : LearnMsg) : ¬s.InHand m p := by simp [InHand,hpc]
      split at h <;> obtain rfl := Option.some.inj h <;>
        exact .aside (by simp [hpc]) hno (by simp) rfl rfl rfl
    | cons x ms =>
      simp only [slowStep,hpc] at h
      split at h
      · next hv =>
        obtain rfl := Option.some.inj h
        exact .skip snap x ms hpc hv rfl
      · next q hv =>
        obtain rfl := Option.some.inj h
        exact .link snap x ms q hpc hv rfl
  | link snap ms q d pc =>
    simp only [slowStep,hpc] at h
    obtain rfl := Option.some.inj h
    exact .inLink snap ms q d pc hpc (linkStep_move o snap ms q d pc)
  | calcStart dir =>
    simp only [slowStep,hpc] at h
    obtain ⟨L,-,hL⟩ := Option.bind_eq_some_iff.mp h
    exact calcStep_aside hpc rfl hL
  | calcLoad dir snap i =>
    simp only [slowStep,hpc] at h
    obtain ⟨L,-,hL⟩ := Option.bind_eq_some_iff.mp h
    exact calcStep_aside hpc rfl hL
  | calcBuild dir snap i act =>
    simp only [slowStep,hpc] at h
    obtain ⟨L,-,hL⟩ := Option.bind_eq_some_iff.mp h
    exact calcStep_aside hpc rfl hL
  | calcXchg dir snap i new =>
    simp only [slowStep,hpc] at h
    obtain ⟨L,-,hL⟩ := Option.bind_eq_some_iff.mp h
    exact calcStep_aside hpc rfl hL
  | calcFree dir snap i old =>
    simp only [slowStep,hpc] at h
    obtain ⟨L,-,hL⟩ := Option.bind_eq_some_iff.mp h
    exact calcStep_aside hpc rfl hL

theorem SlowMove.ready {o : Oracle} (h : SlowMove s t p o) :
    t.nextDev=s.nextDev ∧ ((s.devs p).ready=.rx → (t.devs p).ready=.rx) := by
  cases h with
  | load L _ _ ht => subst ht; exact ⟨rfl,id⟩
  | dequeue snap _ ht => subst ht; exact ⟨rfl,id⟩
  | skip snap x ms _ _ ht => subst ht; exact ⟨rfl,id⟩
  | link snap x ms q _ _ ht => subst ht; exact ⟨rfl,id⟩
  | inLink snap ms q d pc _ hm => exact ⟨hm.nextDev,hm.keeps⟩
  | aside _ _ _ hn _ hd => exact ⟨hn,by rw [hd]; exact id⟩

theorem takes_nil {o : Oracle} (hs : ∀ snap,s.slow≠.deq snap) : s.takes (.slow o)=[] := by
  simp only [takes]

theorem SlowMove.fifo {o : Oracle} (h : SlowMove s t p o) :
    s.takes (.slow o)++t.slowRing=s.slowRing := by
  cases h with
  | load L hpc _ ht =>
    subst ht
    rw [takes_nil (by simp [hpc])]
    rfl
  | dequeue snap hpc ht =>
    subst ht
    have htakes : s.takes (.slow o)=s.slowRing.take o.num := by simp [takes,hpc]
    rw [htakes]
    exact List.take_append_drop _ _
  | skip snap x ms hpc _ ht =>
    subst ht
    rw [takes_nil (by simp [hpc])]
    rfl
  | link snap x ms q hpc _ ht =>
    subst ht
    rw [takes_nil (by simp [hpc])]
    rfl
  | inLink snap ms q d pc hpc hm =>
    rw [takes_nil (by simp [hpc])]
    exact hm.ring
  | aside hs _ _ _ hr _ =>
    rw [takes_nil hs]
    exact hr

theorem Queued.stay {o : Oracle} (hq : s.Queued m p k) (hs : ∀ snap,s.slow≠.deq snap)
    (hr : t.slowRing=s.slowRing) (ht : ∀ snap,t.slow=.deq snap → snap.vdevs m.vid=some p) :
    (s.takes (.slow o)).length ≤ k ∧ t.Queued m p (k-(s.takes (.slow o)).length) := by
  rw [takes_nil hs]
  exact ⟨Nat.zero_le _,by rw [hr]; exact hq.1,ht⟩

/-- A message in the ring moves up by what is taken, until it is taken itself. -/
theorem SlowMove.queued {o : Oracle} (h : SlowMove s t p o) (hq : s.Queued m p k)
    (hl : s.Listed m.vid p) :
    ((s.takes (.slow o)).length ≤ k ∧ t.Queued m p (k-(s.takes (.slow o)).length)) ∨
      t.InHand m p := by
  cases h with
  | load L hpc hL ht =>
    subst ht
    refine .inl (hq.stay (by simp [hpc]) rfl (fun snap e => ?_))
    obtain ⟨L',hL',hv⟩ := hl
    obtain rfl := Option.some.inj (hL.symm.trans hL')
    cases e
    exact hv
  | dequeue snap hpc ht =>
    subst ht
    have htakes : s.takes (.slow o)=s.slowRing.take o.num := by simp [takes,hpc]
    obtain ⟨hlt,-⟩ := List.getElem?_eq_some_iff.mp hq.1
    rw [htakes,List.length_take]
    by_cases hnum : k < o.num
    · refine .inr ⟨?_,hq.2 snap hpc⟩
      apply List.mem_of_getElem? (i:=k)
      rw [List.getElem?_take_of_lt hnum]
      exact hq.1
    · refine .inl ⟨by omega,?_,fun _ e => by cases e⟩
      change (s.slowRing.drop o.num)[_]?=_
      rw [List.getElem?_drop,← hq.1]
      congr 1
      omega
  | skip snap x ms hpc _ ht =>
    subst ht
    exact .inl (hq.stay (by simp [hpc]) rfl (fun _ e => by cases e))
  | link snap x ms q hpc _ ht =>
    subst ht
    exact .inl (hq.stay (by simp [hpc]) rfl (fun _ e => by cases e))
  | inLink snap ms q d pc hpc hm =>
    refine .inl (hq.stay (by simp [hpc]) hm.ring (fun _ e => ?_))
    obtain ⟨pc',hto,-⟩ | ⟨hto,-⟩ := hm.moves
    · rw [hto] at e
      cases e
    · rw [hto] at e
      cases e
  | aside hs _ ht _ hr _ => exact .inl (hq.stay hs hr (fun snap e => absurd e (ht snap)))

theorem SlowMove.inHand {o : Oracle} (h : SlowMove s t p o) (hi : s.InHand m p) :
    t.InHand m p ∨ (t.devs p).ready=.rx := by
  cases h with
  | load L hpc _ ht => simp [InHand,hpc] at hi
  | dequeue snap hpc ht => simp [InHand,hpc] at hi
  | skip snap x ms hpc hv ht =>
    subst ht
    simp only [InHand,hpc,List.mem_cons] at hi
    obtain ⟨rfl | hm,hp⟩ := hi
    · simp [hv] at hp
    · exact .inl ⟨hm,hp⟩
  | link snap x ms q hpc hv ht =>
    subst ht
    simp only [InHand,hpc,List.mem_cons] at hi
    obtain ⟨rfl | hm,hp⟩ := hi
    · obtain rfl := Option.some.inj (hv.symm.trans hp)
      exact .inl (.inr ⟨rfl,rfl⟩)
    · exact .inl (.inl ⟨hm,hp⟩)
  | inLink snap ms q d pc hpc hm =>
    simp only [InHand,hpc] at hi
    obtain ⟨pc',hto,hpc'⟩ | ⟨hto,hpc'⟩ := hm.moves
    · simp only [InHand,hto]
      obtain hi | ⟨rfl,hun⟩ := hi
      · exact .inl (.inl hi)
      · obtain hun' | hrx := hpc' hun
        · exact .inl (.inr ⟨rfl,hun'⟩)
        · exact .inr hrx
    · simp only [InHand,hto]
      obtain hi | ⟨rfl,hun⟩ := hi
      · exact .inl hi
      · rw [hpc'] at hun
        cases hun
  | aside _ hno _ _ _ _ => exact absurd hi (hno m)

theorem takes_others {a : Action} (ha : ¬∃ o,a=.slow o) : s.takes a=[] := by
  cases a with
  | slow o => exact absurd ⟨o,rfl⟩ ha
  | _ => rfl

def Served (m : LearnMsg) (p : DevPtr) (s : Sys) : Prop := s.InHand m p ∨ (s.devs p).ready=.rx

theorem step_nextDev {a : Action} (hu : s.ctl.unlinks p=false) (hp : p < s.nextDev)
    (h : s.step cfg a=some t) : p < t.nextDev := by
  by_cases ha : ∃ o,a=.slow o
  · obtain ⟨o,rfl⟩ := ha
    rw [(slowStep_move (p:=p) h).ready.1]
    exact hp
  · exact (step_others (not_exists.mp ha) hu hp h).2.2.2

theorem step_served {a : Action} (hs : s.Served m p) (hu : s.ctl.unlinks p=false)
    (hp : p < s.nextDev)
    (h : s.step cfg a=some t) : t.Served m p := by
  by_cases ha : ∃ o,a=.slow o
  · obtain ⟨o,rfl⟩ := ha
    have hmove : SlowMove s t p o := slowStep_move h
    obtain hi | hr := hs
    · exact hmove.inHand hi
    · exact .inr (hmove.ready.2 hr)
  · obtain ⟨hslow,-,hd,-⟩ := step_others (not_exists.mp ha) hu hp h
    obtain hi | hr := hs
    · refine .inl ?_
      simp only [InHand,hslow]
      exact hi
    · exact .inr (hd.trans hr)

theorem step_queued {a : Action} (hq : s.Queued m p k) (hc : s.Connected m.vid p)
    (hp : p < s.nextDev) (h : s.step cfg a=some t) :
    ((s.takes a).length ≤ k ∧ t.Queued m p (k-(s.takes a).length)) ∨ t.Served m p := by
  by_cases ha : ∃ o,a=.slow o
  · obtain ⟨o,rfl⟩ := ha
    exact ((slowStep_move h).queued hq hc.1).imp_right .inl
  · obtain ⟨hslow,⟨more,hmore⟩,-,-⟩ := step_others (not_exists.mp ha) hc.2 hp h
    rw [takes_others ha]
    refine .inl ⟨Nat.zero_le _,?_,by rw [hslow]; exact hq.2⟩
    obtain ⟨hlt,-⟩ := List.getElem?_eq_some_iff.mp hq.1
    rw [← hmore,List.length_nil,Nat.sub_zero,List.getElem?_append_left hlt]
    exact hq.1

theorem run_fifo {as : List Action} (hp : p < s.nextDev)
    (hv : Visits (step cfg) (Connected m.vid p) s as) (h : run (step cfg) s as=some t) :
    ∃ more,s.taken cfg as++t.slowRing=s.slowRing++more := by
  induction as generalizing s with
  | nil =>
    have h' := Option.some.inj h
    subst h'
    exact ⟨[],by simp [taken,trace]⟩
  | cons a as ih =>
    obtain ⟨u,hu,hr⟩ := Option.bind_eq_some_iff.mp h
    obtain ⟨more,hmore⟩ := ih (step_nextDev hv.1.2 hp hu) (hv.2 u hu) hr
    have htaken : s.taken cfg (a::as)=s.takes a++u.taken cfg as := by
      rw [taken,trace,hu]
      rfl
    rw [htaken,List.append_assoc,hmore]
    by_cases ha : ∃ o,a=.slow o
    · obtain ⟨o,rfl⟩ := ha
      refine ⟨more,?_⟩
      rw [← List.append_assoc,(slowStep_move (p:=p) hu).fifo]
    · obtain ⟨-,⟨extra,hextra⟩,-,-⟩ := step_others (not_exists.mp ha) hv.1.2 hp hu
      refine ⟨extra++more,?_⟩
      rw [takes_others ha,← hextra,List.nil_append,List.append_assoc]

theorem run_served {as : List Action} (hs : s.Served m p) (hp : p < s.nextDev)
    (hv : Visits (step cfg) (Connected m.vid p) s as) (h : run (step cfg) s as=some t) :
    t.Served m p := by
  induction as generalizing s with
  | nil =>
    have h' := Option.some.inj h
    subst h'
    exact hs
  | cons a as ih =>
    obtain ⟨u,hu,hr⟩ := Option.bind_eq_some_iff.mp h
    have hnot := hv.1.2
    exact ih (step_served hs hnot hp hu) (step_nextDev hnot hp hu) (hv.2 u hu) hr

theorem run_queued {as : List Action} (hq : s.Queued m p k) (hp : p < s.nextDev)
    (hv : Visits (step cfg) (Connected m.vid p) s as) (h : run (step cfg) s as=some t)
    (hk : k < (s.taken cfg as).length) : t.Served m p := by
  induction as generalizing s k with
  | nil => cases hk
  | cons a as ih =>
    obtain ⟨u,hu,hr⟩ := Option.bind_eq_some_iff.mp h
    have hp' := step_nextDev hv.1.2 hp hu
    obtain ⟨hle,hq'⟩ | hs := step_queued hq hv.1 hp hu
    · refine ih hq' hp' (hv.2 u hu) hr ?_
      rw [taken,trace,hu,List.length_append] at hk
      exact Nat.sub_lt_left_of_lt_add hle hk
    · exact run_served hs hp' (hv.2 u hu) hr

end

/-- Learning is not lost: while VM `m.vid` stays connected, its message is taken at its turn,
and once the slow path has taken it and is done with the batch, the VM's device is ready, with
every other thread running in between. The slow path loads the list before it dequeues; a list
that it has loaded already must show the device, or the message is dropped. -/
theorem learning_completes (cfg : Config) (m : LearnMsg) (p : DevPtr) (k : Nat) (s t : Sys)
    (as : List Action) (hring : s.slowRing[k]?=some m)
    (hloaded : ∀ snap,s.slow=.deq snap → snap.vdevs m.vid=some p) (hp : p < s.nextDev)
    (hv : Visits (step cfg) (Connected m.vid p) s as) (h : run (step cfg) s as=some t)
    (hk : k < (s.taken cfg as).length) :
    (s.taken cfg as)[k]?=some m ∧ (t.slow.inBatch=false → (t.devs p).ready=.rx) := by
  have hq : s.Queued m p k := ⟨hring,hloaded⟩
  constructor
  · obtain ⟨more,hmore⟩ := run_fifo hp hv h
    obtain ⟨hlt,-⟩ := List.getElem?_eq_some_iff.mp hq.1
    rw [← List.getElem?_append_left hk,hmore,List.getElem?_append_left hlt]
    exact hq.1
  · intro hend
    obtain hi | hr := run_queued hq hp hv h hk
    · rw [hi.inBatch] at hend
      cases hend
    · exact hr

/-- Two VMs connect, and the first packet of each reaches the slow path's ring. -/
def connectTwo : List Action :=
  slowSteps 10 3 0++.newDevice 0::ctlSteps 20 14++.newDevice 1::ctlSteps 40 14++
    [.issue ⟨0,ipv4Frame 5 1⟩,.issue ⟨1,ipv4Frame 6 1⟩]

def twoConnected : Sys :=
  (run (step smallConfig) (init smallConfig) connectTwo).getD (init smallConfig)

/-- The slow path takes one message at a time while a third VM connects. -/
def learnBoth : List Action :=
  slowSteps 60 5 1++.newDevice 2::ctlSteps 80 5++slowSteps 100 36 1

theorem learning_completes_learnBoth : ∃ t,run (step smallConfig) twoConnected learnBoth=some t ∧
    (twoConnected.taken smallConfig learnBoth)[1]?=some ⟨1,ipv4Frame 6 1⟩ ∧
    (t.devs 1).ready=.rx := by
  have h : (guardedRun (step smallConfig) (fun s _ => Connected 1 1 s) twoConnected learnBoth).map
      (fun t => (decide (Connected 1 1 t),t.slow.inBatch))=some (true,false) := by
    decide +kernel
  obtain ⟨t,ht,hb⟩ := Option.map_eq_some_iff.mp h
  have hc : Connected 1 1 t := of_decide_eq_true (congrArg Prod.fst hb)
  obtain ⟨hrun,hv⟩ := visits_of_guardedRun _ ht hc
  have hloaded : ∀ snap,twoConnected.slow=.deq snap → snap.vdevs 1=some 1 := by
    intro snap e
    cases e
  obtain ⟨hk,hready⟩ := learning_completes smallConfig ⟨1,ipv4Frame 6 1⟩ 1 1 twoConnected t
    learnBoth rfl hloaded (by decide +kernel) hv hrun (by decide +kernel)
  exact ⟨t,hrun,hk,hready (congrArg Prod.snd hb)⟩

end Sys

end Umanet
