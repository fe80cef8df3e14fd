import Umanet.System.Threads

namespace Umanet

open Framework

/-- destroy_device has yet to find its vid in a plan of this direction. -/
def CtlPc.looksFor : CtlPc → Dir → Prop
  | .dstFind _,_ => True
  | .unlink _ _ _,_ => True
  | .dstLoad _ _,_ => True
  | .dstCas _ _ _ _,_ => True
  | .remove .rx _ _ (.lookup _),_ => True
  | .remove .rx _ _ _,dir => dir=.tx
  | .remove .tx _ _ (.lookup _),dir => dir=.tx
  | _,_ => False

def CtlPc.isIdle : CtlPc → Bool
  | .idle => true
  | _ => false

theorem CtlPc.eq_idle {pc : CtlPc} (h : pc.isIdle=true) : pc=.idle := by
  cases pc with
  | idle => rfl
  | _ => simp [isIdle] at h

def SlowPc.isDrained : SlowPc → Bool
  | .msgs _ [] => true
  | _ => false

namespace Sys

def InPlans (cfg : Config) (s : Sys) (v : Vid) (dir : Dir) (i : Nat) : Prop :=
  ∃ j,i ≤ j ∧ j < cfg.cores dir ∧ v∈(s.planOf dir j).entries

def Listed (s : Sys) (v : Vid) (p : DevPtr) : Prop := ∃ L,s.list=some L ∧ L.vdevs v=some p

def Unlisted (s : Sys) (v : Vid) : Prop := ∃ L,s.list=some L ∧ L.vdevs v=none

def Unrouted (s : Sys) (v : Vid) : Prop := ∀ b : Byte,s.route b≠v.val

/-- The only route entry of v is the one unlink_vmdq will look at. -/
def RoutedByIp (s : Sys) (v : Vid) (p : DevPtr) : Prop :=
  ∀ b : Byte,s.route b=v.val → b=octet (s.devs p).ip ∧ (s.devs p).ready=.rx

/-- What destroy_device is to achieve. -/
structure TornDown (s : Sys) (v : Vid) (p : DevPtr) : Prop where
  unlisted : s.Unlisted v
  unrouted : s.Unrouted v
  noRule : s.flow.NoRule p

/-- destroy_device(v) has just been called on a device whose traces are where the code
will look for them: in the list, in a plan of each direction, in the route entry of
its current address, and in the flow slot of its current vm_id. -/
structure Intact (cfg : Config) (s : Sys) (v : Vid) (p : DevPtr) : Prop where
  called : s.ctl=.dstFind v
  started : ∀ pc,s.slow≠.main pc
  listed : s.Listed v p
  routed : s.RoutedByIp v p
  rule : s.flow.OwnedAt p (s.devs p).vmId
  planned : ∀ dir,s.InPlans cfg v dir 0

/-- A step of link_vmdq or install_eth_rx_flow that does not write the state of the
device under removal. -/
def LinksOther (s : Sys) (v : Vid) (p q : DevPtr) : LinkPc → Prop
  | .mac | .routeTest | .flowTest => True
  | .routeSet _ => (s.devs q).vid≠v
  | .ip | .vmId | .ready | .flowCreate => q≠p

def SlowLeaves (s : Sys) (v : Vid) (p : DevPtr) : SlowPc → Prop
  | .link _ _ q _ pc => s.LinksOther v p q pc
  | .calcXchg dir _ i new =>
    s.ctl.looksFor dir → v∈(s.planOf dir i).entries → v∈new.plan.entries
  | _ => True

def DestroyAnswers (o : Oracle) : CtlPc → Prop
  | .uninstall _ _ => o.ok=true
  | _ => True

/-- During one call of destroy_device, and after it, no other callback comes, the NIC
destroys the rule it is told to, and the slow path neither links the device nor takes
it out of a plan in which destroy_device has yet to find it. -/
def Undisturbed (v : Vid) (p : DevPtr) (s : Sys) : Action → Prop
  | .newDevice _ | .destroyDevice _ => False
  | .ctl o => DestroyAnswers o s.ctl
  | .slow _ => s.SlowLeaves v p s.slow
  | _ => True

instance (pc : CtlPc) (dir : Dir) : Decidable (pc.looksFor dir) :=
  match pc with
  | .dstFind _ | .unlink _ _ _ | .dstLoad _ _ | .dstCas _ _ _ _
  | .remove .rx _ _ (.lookup _) => isTrue trivial
  | .remove .rx _ _ (.search _ _ _) | .remove .rx _ _ (.load _) | .remove .rx _ _ (.cas _ _ _ _)
  | .remove .rx _ _ (.mapWrite _) | .remove .tx _ _ (.lookup _) =>
    inferInstanceAs (Decidable (dir=.tx))
  | .remove .tx _ _ (.search _ _ _) | .remove .tx _ _ (.load _) | .remove .tx _ _ (.cas _ _ _ _)
  | .remove .tx _ _ (.mapWrite _) | .idle | .newCheck _ _ | .newLoad _ _ | .newCas _ _ _ _
  | .add _ _ _ | .uninstall _ _ => isFalse id

instance (s : Sys) (v : Vid) (p q : DevPtr) (pc : LinkPc) : Decidable (s.LinksOther v p q pc) :=
  match pc with
  | .mac | .routeTest | .flowTest => isTrue trivial
  | .routeSet _ => inferInstanceAs (Decidable ((s.devs q).vid≠v))
  | .ip | .vmId | .ready | .flowCreate => inferInstanceAs (Decidable (q≠p))

instance (s : Sys) (v : Vid) (p : DevPtr) (pc : SlowPc) : Decidable (s.SlowLeaves v p pc) :=
  match pc with
  | .link _ _ q _ pc => inferInstanceAs (Decidable (s.LinksOther v p q pc))
  | .calcXchg dir _ i new => inferInstanceAs (Decidable
      (s.ctl.looksFor dir → v∈(s.planOf dir i).entries → v∈new.plan.entries))
  | .main _ | .loop | .deq _ | .msgs _ _ | .calcStart _ | .calcLoad _ _ _
  | .calcBuild _ _ _ _ | .calcFree _ _ _ _ => isTrue trivial

instance (o : Oracle) (pc : CtlPc) : Decidable (DestroyAnswers o pc) :=
  match pc with
  | .uninstall _ _ => inferInstanceAs (Decidable (o.ok=true))
  | .idle | .newCheck _ _ | .newLoad _ _ | .newCas _ _ _ _ | .add _ _ _ | .dstFind _
  | .unlink _ _ _ | .dstLoad _ _ | .dstCas _ _ _ _ | .remove _ _ _ _ => isTrue trivial

instance (v : Vid) (p : DevPtr) (s : Sys) (a : Action) : Decidable (Undisturbed v p s a) :=
  match a with
  | .newDevice _ | .destroyDevice _ => isFalse id
  | .ctl o => inferInstanceAs (Decidable (DestroyAnswers o s.ctl))
  | .slow _ => inferInstanceAs (Decidable (s.SlowLeaves v p s.slow))
  | .issue _ | .ethPoll _ _ | .ethLoad _ | .ethNext _ => isTrue trivial

def Progress (cfg : Config) (s : Sys) (v : Vid) (p : DevPtr) : CtlPc → Prop
  | .dstFind u => u=v ∧ s.Listed v p ∧ s.RoutedByIp v p
  | .unlink u q .test => u=v ∧ q=p ∧ s.Listed v p ∧ s.RoutedByIp v p
  | .unlink u q .routeTest =>
    u=v ∧ q=p ∧ s.Listed v p ∧ ∀ b : Byte,s.route b=v.val → b=octet (s.devs p).ip
  | .unlink u q (.routeClear b) => u=v ∧ q=p ∧ s.Listed v p ∧ ∀ b',s.route b'=v.val → b'=b
  | .unlink u q _ => u=v ∧ q=p ∧ s.Listed v p ∧ s.Unrouted v
  | .dstLoad u q => u=v ∧ q=p ∧ s.Listed v p ∧ s.Unrouted v ∧ (s.devs p).ready=.safeRemove
  | .dstCas u q _ new => u=v ∧ q=p ∧ s.Listed v p ∧ s.Unrouted v ∧
      (s.devs p).ready=.safeRemove ∧ new.vdevs v=none
  | .remove dir u q (.lookup i) =>
    u=v ∧ q=p ∧ s.Unlisted v ∧ s.Unrouted v ∧ s.InPlans cfg v dir i
  | .remove _ u q _ => u=v ∧ q=p ∧ s.Unlisted v ∧ s.Unrouted v
  | .uninstall u q => u=v ∧ q=p ∧ s.Unlisted v ∧ s.Unrouted v
  | .idle => s.TornDown v p
  | _ => False

structure TeardownInv (cfg : Config) (v : Vid) (p : DevPtr) (s : Sys) : Prop where
  started : ∀ pc,s.slow≠.main pc
  progress : s.Progress cfg v p s.ctl
  rule : s.flow.OwnedAt p (s.devs p).vmId
  planned : ∀ dir,s.ctl.looksFor dir → s.InPlans cfg v dir 0

variable {cfg : Config} {v : Vid} {p : DevPtr} {s t : Sys}

/-- What a step of the other threads may do to the traces of the device. -/
structure Leaves (v : Vid) (p : DevPtr) (s t : Sys) : Prop where
  list : t.list=s.list
  ctl : t.ctl=s.ctl
  route : ∀ b : Byte,t.route b=v.val → s.route b=v.val
  ip : (t.devs p).ip=(s.devs p).ip
  ready : (t.devs p).ready=(s.devs p).ready
  rule : s.flow.OwnedAt p (s.devs p).vmId → t.flow.OwnedAt p (t.devs p).vmId
  noRule : s.flow.NoRule p → t.flow.NoRule p
  plans : ∀ dir i,s.ctl.looksFor dir → v∈(s.planOf dir i).entries → v∈(t.planOf dir i).entries
  started : ∀ pc,t.slow≠.main pc

theorem InPlans.mono {dir : Dir} {i : Nat} (h : s.InPlans cfg v dir i)
    (hp : ∀ j,v∈(s.planOf dir j).entries → v∈(t.planOf dir j).entries) :
    t.InPlans cfg v dir i := by
  obtain ⟨j,hij,hj,hv⟩ := h
  exact ⟨j,hij,hj,hp j hv⟩

theorem TeardownInv.leave (h : s.TeardownInv cfg v p) (hl : Leaves v p s t) :
    t.TeardownInv cfg v p := by
  have hlist : s.Listed v p → t.Listed v p := by
    unfold Listed
    rw [hl.list]
    exact id
  have hun : s.Unlisted v → t.Unlisted v := by
    unfold Unlisted
    rw [hl.list]
    exact id
  have hroute : s.Unrouted v → t.Unrouted v := fun hu b hb => hu b (hl.route b hb)
  have hby : s.RoutedByIp v p → t.RoutedByIp v p := by
    intro hr b hb
    rw [hl.ip,hl.ready]
    exact hr b (hl.route b hb)
  refine ⟨hl.started,?_,hl.rule h.rule,fun dir hd => ?_⟩
  · have hp := h.progress
    rw [hl.ctl]
    cases hc : s.ctl with
    | idle =>
      rw [hc] at hp
      exact ⟨hun hp.unlisted,hroute hp.unrouted,hl.noRule hp.noRule⟩
    | dstFind u =>
      rw [hc] at hp
      exact ⟨hp.1,hlist hp.2.1,hby hp.2.2⟩
    | unlink u q pc =>
      rw [hc] at hp
      cases pc with
      | test => exact ⟨hp.1,hp.2.1,hlist hp.2.2.1,hby hp.2.2.2⟩
      | routeTest =>
        refine ⟨hp.1,hp.2.1,hlist hp.2.2.1,fun b hb => ?_⟩
        rw [hl.ip]
        exact hp.2.2.2 b (hl.route b hb)
      | routeClear b =>
        exact ⟨hp.1,hp.2.1,hlist hp.2.2.1,fun b' hb => hp.2.2.2 b' (hl.route b' hb)⟩
      | _ => exact ⟨hp.1,hp.2.1,hlist hp.2.2.1,hroute hp.2.2.2⟩
    | dstLoad u q =>
      rw [hc] at hp
      exact ⟨hp.1,hp.2.1,hlist hp.2.2.1,hroute hp.2.2.2.1,hl.ready.trans hp.2.2.2.2⟩
    | dstCas u q ver new =>
      rw [hc] at hp
      exact ⟨hp.1,hp.2.1,hlist hp.2.2.1,hroute hp.2.2.2.1,hl.ready.trans hp.2.2.2.2.1,
        hp.2.2.2.2.2⟩
    | remove dir u q pc =>
      rw [hc] at hp
      cases pc with
      | lookup i =>
        refine ⟨hp.1,hp.2.1,hun hp.2.2.1,hroute hp.2.2.2.1,hp.2.2.2.2.mono fun j => ?_⟩
        exact hl.plans dir j (by rw [hc]; cases dir <;> simp [CtlPc.looksFor])
      | _ => exact ⟨hp.1,hp.2.1,hun hp.2.2.1,hroute hp.2.2.2⟩
    | uninstall u q =>
      rw [hc] at hp
      exact ⟨hp.1,hp.2.1,hun hp.2.2.1,hroute hp.2.2.2⟩
    | _ =>
      rw [hc] at hp
      exact hp
  · rw [hl.ctl] at hd
    exact (h.planned dir hd).mono fun j => hl.plans dir j hd

theorem leaves_same (hs : ∀ pc,t.slow≠.main pc) (hd : t.devs p=s.devs p := by rfl)
    (hl : t.list=s.list := by rfl) (hc : t.ctl=s.ctl := by rfl) (hr : t.route=s.route := by rfl)
    (hf : t.flow=s.flow := by rfl) (hp : t.plans=s.plans := by rfl) : Leaves v p s t := by
  have hpl : t.planOf=s.planOf := by
    funext dir i
    simp only [planOf,hp]
  exact ⟨hl,hc,by rw [hr]; exact fun _ => id,by rw [hd],by rw [hd],by rw [hd,hf]; exact id,
    by rw [hf]; exact id,by rw [hpl]; exact fun _ _ _ => id,hs⟩

theorem linkStep_leaves {o : Oracle} {snap : VdevList} {ms : List LearnMsg} {q : DevPtr}
    {d : Data} {pc : LinkPc} (hg : s.LinksOther v p q pc) :
    Leaves v p s (s.linkStep cfg o snap ms q d pc) := by
  have hdev : ∀ dev,q≠p → (s.setDev q dev).devs p=s.devs p :=
    fun dev hq => Function.update_of_ne (Ne.symm hq) _ _
  cases pc with
  | mac =>
    have hsame : ∀ {α : Type} (f : VhostDev → α),f ((s.devs q).learnMac d)=f (s.devs q) →
        f ((s.setDev q ((s.devs q).learnMac d)).devs p)=f (s.devs p) := by
      intro α f hf
      by_cases he : p=q
      · subst he
        simpa [setDev] using hf
      · simp [setDev,Function.update_of_ne he]
    refine ⟨rfl,rfl,fun _ => id,hsame VhostDev.ip rfl,hsame VhostDev.ready rfl,fun hr => ?_,id,
      fun _ _ _ => id,by simp [linkStep]⟩
    have hid := hsame VhostDev.vmId rfl
    exact hid ▸ hr
  | ip => exact leaves_same (by simp [linkStep]) (hdev _ hg)
  | vmId => exact leaves_same (by simp [linkStep]) (hdev _ hg)
  | routeTest | flowTest =>
    simp only [linkStep]
    split
    · exact leaves_same (by simp)
    · exact leaves_same (by simp)
  | routeSet b =>
    refine ⟨rfl,rfl,fun b' hb => ?_,rfl,rfl,id,id,fun _ _ _ => id,by simp [linkStep]⟩
    by_cases he : b'=b
    · subst he
      have hv : ((s.devs q).vid.val : Int)=v.val := by simpa [linkStep] using hb
      exact absurd (Fin.ext (by omega)) hg
    · simpa [linkStep,Function.update_of_ne he] using hb
  | ready => exact leaves_same (by simp [linkStep]) (hdev _ hg)
  | flowCreate =>
    exact ⟨rfl,rfl,fun _ => id,rfl,rfl,FlowTable.install_ownedAt hg,FlowTable.install_noRule hg,
      fun _ _ _ => id,by simp [linkStep]⟩

theorem calcStep_leaves {L : VdevList} {o : Oracle} {pc : SlowPc} (hg : s.SlowLeaves v p pc)
    (ht : s.calcStep cfg L o pc=some t) : Leaves v p s t := by
  obtain ⟨hf,hc,hs⟩ := calcStep_frame ht
  have hmain : ∀ pc,t.slow≠.main pc := by
    intro pc' hw
    rw [hw] at hs
    simp at hs
  refine ⟨hf.list,hc,by rw [hf.route]; exact fun _ => id,by rw [hf.devs],by rw [hf.devs],
    by rw [hf.devs,hf.flow]; exact id,by rw [hf.flow]; exact id,fun dir i hd hv => ?_,hmain⟩
  cases pc with
  | calcXchg dir' snap j new =>
    have ht' := Option.some.inj ht
    subst ht'
    rw [planOf_setPlan rfl]
    split
    · rename_i he
      obtain ⟨rfl,rfl⟩ := he
      exact hg hd hv
    · exact hv
  | calcStart dir' =>
    have ht' := Option.some.inj ht
    subst ht'
    exact hv
  | calcFree dir' snap j old =>
    have ht' := Option.some.inj ht
    subst ht'
    exact hv
  | calcLoad dir' snap j =>
    simp only [calcStep] at ht
    split at ht
    · have ht' := Option.some.inj ht
      subst ht'
      exact hv
    · cases dir' <;> obtain rfl := Option.some.inj ht <;> exact hv
  | calcBuild dir' snap j act =>
    simp only [calcStep] at ht
    split at ht
    · simp at ht
    · have ht' := Option.some.inj ht
      subst ht'
      exact hv
  | _ => simp [calcStep] at ht

theorem slowStep_leaves (hn : ∀ pc,s.slow≠.main pc) {o : Oracle}
    (hg : s.SlowLeaves v p s.slow) (ht : s.slowStep cfg o=some t) : Leaves v p s t := by
  cases hc : s.slow with
  | main pc => exact absurd hc (hn pc)
  | loop =>
    simp only [slowStep,hc] at ht
    obtain ⟨L,-,rfl⟩ := Option.map_eq_some_iff.mp ht
    exact leaves_same (by simp)
  | deq snap =>
    simp only [slowStep,hc] at ht
    split at ht
    · have ht' := Option.some.inj ht
      subst ht'
      exact leaves_same (by simp)
    · simp at ht
  | msgs snap ms =>
    cases ms <;> simp only [slowStep,hc] at ht <;> split at ht <;>
      obtain rfl := Option.some.inj ht <;> exact leaves_same (by simp)
  | link snap ms q d pc =>
    simp only [slowStep,hc] at ht
    rw [hc] at hg
    have ht' := Option.some.inj ht
    subst ht'
    exact linkStep_leaves hg
  | _ =>
    simp only [slowStep,hc] at ht
    rw [hc] at hg
    obtain ⟨L,-,hs⟩ := Option.bind_eq_some_iff.mp ht
    exact calcStep_leaves hg hs

/-- A control step that keeps the rule, the plans and what destroy_device looks for. -/
theorem TeardownInv.advance (h : s.TeardownInv cfg v p)
    (hlook : ∀ dir,t.ctl.looksFor dir → s.ctl.looksFor dir)
    (hprog : t.Progress cfg v p t.ctl) (hd : (t.devs p).vmId=(s.devs p).vmId := by rfl)
    (hs : t.slow=s.slow := by rfl) (hf : t.flow=s.flow := by rfl)
    (hp : t.plans=s.plans := by rfl) : t.TeardownInv cfg v p := by
  refine ⟨by rw [hs]; exact h.started,hprog,by rw [hf,hd]; exact h.rule,fun dir hd => ?_⟩
  refine (h.planned dir (hlook dir hd)).mono fun j hj => ?_
  rw [planOf,hp]
  exact hj

theorem unlinkStep_teardown (h : s.TeardownInv cfg v p) {u : Vid} {q : DevPtr} {pc : UnlinkPc}
    (hc : s.ctl=.unlink u q pc) : (s.unlinkStep u q pc).TeardownInv cfg v p := by
  have hp := h.progress
  rw [hc] at hp
  have hlook : ∀ dir,s.ctl.looksFor dir := fun dir => by rw [hc]; trivial
  cases pc with
  | test =>
    obtain ⟨rfl,rfl,hlist,hroute⟩ := hp
    simp only [unlinkStep]
    split
    · exact h.advance (fun dir _ => hlook dir)
        ⟨rfl,rfl,hlist,fun b hb => (hroute b hb).1⟩
    · rename_i hr
      exact h.advance (fun dir _ => hlook dir)
        ⟨rfl,rfl,hlist,fun b hb => hr (hroute b hb).2⟩
  | routeTest =>
    obtain ⟨rfl,rfl,hlist,hroute⟩ := hp
    simp only [unlinkStep]
    split
    · rename_i hfree
      refine h.advance (fun dir _ => hlook dir) ⟨rfl,rfl,hlist,fun b hb => ?_⟩
      have hv : s.route b=u.val := hb
      rw [hroute b hv] at hv
      omega
    · exact h.advance (fun dir _ => hlook dir) ⟨rfl,rfl,hlist,hroute⟩
  | routeClear b =>
    obtain ⟨rfl,rfl,hlist,hroute⟩ := hp
    refine h.advance (fun dir _ => hlook dir) ⟨rfl,rfl,hlist,fun b' hb => ?_⟩
    by_cases he : b'=b
    · subst he
      simp [unlinkStep] at hb
    · have hv : s.route b'=u.val := by simpa [unlinkStep,Function.update_of_ne he] using hb
      exact he (hroute b' hv)
  | clearMac =>
    obtain ⟨rfl,rfl,hlist,hroute⟩ := hp
    exact h.advance (fun dir _ => hlook dir) ⟨rfl,rfl,hlist,hroute⟩ (by simp [unlinkStep,setDev])
  | clearIp =>
    obtain ⟨rfl,rfl,hlist,hroute⟩ := hp
    exact h.advance (fun dir _ => hlook dir) ⟨rfl,rfl,hlist,hroute⟩ (by simp [unlinkStep,setDev])
  | mark =>
    obtain ⟨rfl,rfl,hlist,hroute⟩ := hp
    exact h.advance (fun dir _ => hlook dir)
      ⟨rfl,rfl,hlist,hroute,by simp [unlinkStep,setDev,VhostDev.setReady]⟩
      (by simp [unlinkStep,setDev,VhostDev.setReady])

/-- Once the lookup of one direction has succeeded its plans no longer matter. -/
theorem removeStep_teardown (h : s.TeardownInv cfg v p) {dir : Dir} {u : Vid} {q : DevPtr}
    {pc : PlanPc} {o : Oracle} (hc : s.ctl=.remove dir u q pc)
    (ht : s.removeStep cfg o dir u q pc=some t) : t.TeardownInv cfg v p := by
  have hp := h.progress
  rw [hc] at hp
  obtain ⟨hf,hslow,-⟩ := removeStep_frame ht
  have hgone : s.Unlisted v → s.Unrouted v → t.Unlisted v ∧ t.Unrouted v := by
    unfold Unlisted Unrouted
    rw [hf.list,hf.route]
    exact And.intro
  have hrule : t.flow.OwnedAt p (t.devs p).vmId := by
    rw [hf.flow,hf.devs]
    exact h.rule
  have hstart : ∀ pc,t.slow≠.main pc := by
    rw [hslow]
    exact h.started
  have htx : s.ctl.looksFor .tx → (∀ j,t.planOf .tx j=s.planOf .tx j) → t.InPlans cfg v .tx 0 :=
    fun hl hpl => (h.planned .tx hl).mono fun j hj => by rw [hpl j]; exact hj
  cases pc with
  | search i best min => simp [removeStep] at ht
  | lookup i =>
    obtain ⟨rfl,rfl,hun,hur,j,hij,hj,hv⟩ := hp
    obtain ⟨hun',hur'⟩ := hgone hun hur
    simp only [removeStep] at ht
    split at ht
    · split at ht <;> obtain rfl := Option.some.inj ht
      · refine ⟨hstart,⟨rfl,rfl,hun',hur'⟩,hrule,fun d hd => ?_⟩
        cases dir with
        | rx =>
          obtain rfl : d=.tx := hd
          exact htx (by rw [hc]; trivial) (fun _ => rfl)
        | tx => exact hd.elim
      · rename_i hnot
        have hne : i≠j := fun e => hnot (e ▸ hv)
        refine ⟨hstart,⟨rfl,rfl,hun',hur',j,by omega,hj,hv⟩,hrule,fun d hd => ?_⟩
        exact h.planned d (by rw [hc]; cases dir <;> exact hd)
    · omega
  | load c =>
    obtain ⟨rfl,rfl,hun,hur⟩ := hp
    rw [removeStep,loadCopy] at ht
    split at ht
    · simp at ht
    · have ht' := Option.some.inj ht
      subst ht'
      obtain ⟨hun',hur'⟩ := hgone hun hur
      refine ⟨hstart,⟨rfl,rfl,hun',hur'⟩,hrule,fun d hd => ?_⟩
      exact h.planned d (by rw [hc]; cases dir <;> exact hd)
  | cas c old src new =>
    obtain ⟨rfl,rfl,hun,hur⟩ := hp
    obtain ⟨hun',hur'⟩ := hgone hun hur
    simp only [removeStep,casPlan] at ht
    split at ht <;> obtain rfl := Option.some.inj ht
    · refine ⟨hstart,⟨rfl,rfl,hun',hur'⟩,hrule,fun d hd => ?_⟩
      cases dir with
      | rx =>
        obtain rfl : d=.tx := hd
        refine htx (by rw [hc]; rfl) fun j => ?_
        rw [planOf_setPlan rfl]
        simp
      | tx => exact hd.elim
    · refine ⟨hstart,⟨rfl,rfl,hun',hur'⟩,hrule,fun d hd => ?_⟩
      exact h.planned d (by rw [hc]; cases dir <;> exact hd)
  | mapWrite c =>
    obtain ⟨rfl,rfl,hun,hur⟩ := hp
    cases dir <;> obtain rfl := Option.some.inj ht <;> obtain ⟨hun',hur'⟩ := hgone hun hur
    · have hin := htx (by rw [hc]; rfl) (fun _ => rfl)
      refine ⟨hstart,⟨rfl,rfl,hun',hur',hin⟩,hrule,fun d hd => ?_⟩
      obtain rfl : d=.tx := hd
      exact hin
    · exact ⟨hstart,⟨rfl,rfl,hun',hur'⟩,hrule,fun d hd => hd.elim⟩

theorem ctlStep_teardown (h : s.TeardownInv cfg v p) {L : VdevList} {o : Oracle}
    (hg : DestroyAnswers o s.ctl) (hl : s.list=some L) (ht : s.ctlStep cfg L o=some t) :
    t.TeardownInv cfg v p := by
  have hp := h.progress
  have hfind : s.Listed v p → L.vdevs v=some p := by
    rintro ⟨L',e,hv⟩
    have heq := Option.some.inj (hl.symm.trans e)
    subst heq
    exact hv
  cases hc : s.ctl with
  | idle => simp [ctlStep,hc] at ht
  | dstFind u =>
    rw [hc] at hp
    obtain ⟨rfl,hlist,hroute⟩ := hp
    simp only [ctlStep,hc,hfind hlist] at ht
    have ht' := Option.some.inj ht
    subst ht'
    exact h.advance (fun _ _ => by rw [hc]; trivial) ⟨rfl,rfl,hlist,hroute⟩
  | unlink u q pc =>
    simp only [ctlStep,hc] at ht
    have ht' := Option.some.inj ht
    subst ht'
    exact unlinkStep_teardown h hc
  | dstLoad u q =>
    rw [hc] at hp
    obtain ⟨rfl,rfl,hlist,hur,hready⟩ := hp
    simp only [ctlStep,hc,hfind hlist,hready,if_true] at ht
    have ht' := Option.some.inj ht
    subst ht'
    exact h.advance (fun _ _ => by rw [hc]; trivial)
      ⟨rfl,rfl,hlist,hur,hready,by simp [VdevList.remove]⟩
  | dstCas u q ver new =>
    rw [hc] at hp
    obtain ⟨rfl,rfl,hlist,hur,hready,hnew⟩ := hp
    simp only [ctlStep,hc] at ht
    split at ht <;> obtain rfl := Option.some.inj ht
    · refine h.advance (fun _ _ => by rw [hc]; trivial)
        ⟨rfl,rfl,⟨new,rfl,hnew⟩,hur,?_⟩
      exact h.planned .rx (by rw [hc]; trivial)
    · exact h.advance (fun _ _ => by rw [hc]; trivial) ⟨rfl,rfl,hlist,hur,hready⟩
  | remove dir u q pc =>
    simp only [ctlStep,hc] at ht
    exact removeStep_teardown h hc ht
  | uninstall u q =>
    rw [hc] at hp hg
    obtain ⟨rfl,rfl,hun,hur⟩ := hp
    have hok : o.ok=true := hg
    simp only [ctlStep,hc,hok] at ht
    have ht' := Option.some.inj ht
    subst ht'
    have hno := FlowTable.uninstall_noRule h.rule
    exact ⟨h.started,⟨hun,hur,hno⟩,fun i r hr ho => absurd ho (hno i r hr),fun d hd => hd.elim⟩
  | _ =>
    rw [hc] at hp
    exact hp.elim

theorem step_teardown (h : s.TeardownInv cfg v p) {a : Action} (hg : Undisturbed v p s a)
    (ht : s.step cfg a=some t) : t.TeardownInv cfg v p := by
  cases a with
  | newDevice u => exact hg.elim
  | destroyDevice u => exact hg.elim
  | ctl o =>
    obtain ⟨L,hl,hs⟩ := Option.bind_eq_some_iff.mp ht
    exact ctlStep_teardown h hg hl hs
  | slow o => exact h.leave (slowStep_leaves h.started hg ht)
  | issue m =>
    have ht' := Option.some.inj ht
    subst ht'
    exact h.leave (leaves_same h.started)
  | ethPoll c frames =>
    obtain ⟨-,rfl⟩ := step_ethPoll ht
    exact h.leave (leaves_same h.started)
  | ethLoad c =>
    obtain ⟨frames,-,rfl⟩ := step_ethLoad ht
    exact h.leave (leaves_same h.started)
  | ethNext c =>
    obtain ⟨snap,frames,-,rfl | rfl⟩ := step_ethNext ht
    · exact h.leave (leaves_same h.started)
    · exact h.leave (leaves_same h.started)

theorem Intact.inv (h : s.Intact cfg v p) : s.TeardownInv cfg v p := by
  refine ⟨h.started,?_,h.rule,fun dir _ => h.planned dir⟩
  rw [h.called]
  exact ⟨rfl,h.listed,h.routed⟩

/-- An undisturbed destroy_device on an intact device leaves nothing behind: whenever
it has returned, list, routes and flow rules are free of the device. -/
theorem torn_down_of_undisturbed (cfg : Config) (v : Vid) (p : DevPtr) (s₀ s : Sys)
    (h0 : s₀.Intact cfg v p) (h : Reaches (Sys.step cfg) (Undisturbed v p) s₀ s)
    (hidle : s.ctl=.idle) : s.TornDown v p := by
  have hinv : s.TeardownInv cfg v p := h.invariant h0.inv (fun hi hg ht => step_teardown hi hg ht)
  have hp := hinv.progress
  rw [hidle] at hp
  exact hp

/-- Vid 0 is linked as 192.168.100.5 with its route, rule and plans, and DPDK has just
called destroy_device(0). -/
def linkedDevice : Sys :=
  let dev : VhostDev := ⟨0,3,fun _ => 7,0xC0A86405,.rx⟩
  {Sys.init smallConfig with
    nicUp:=true
    list:=some (VdevList.empty.insert 0 0)
    listVer:=2
    devs:=fun _ => dev
    nextDev:=1
    route:=Function.update initRouteTable 5 0
    flow:=(FlowTable.empty.install 1 0 dev true).2
    plans:=fun dir i => ⟨match dir with | .rx => i | .tx => 1+i,
      if i=0 then VhostPlan.zero.append 0 else .zero⟩
    ctl:=.dstFind 0
    slow:=.loop}

theorem linkedDevice_intact : linkedDevice.Intact smallConfig 0 0 where
  called := rfl
  started _ := by simp [linkedDevice]
  listed := ⟨_,rfl,rfl⟩
  routed b hb := by
    by_cases he : b=5
    · exact ⟨he,rfl⟩
    · have hold : initRouteTable b=0 := (Function.update_of_ne he _ _).symm.trans hb
      simp [initRouteTable] at hold
  rule i r hr _ := by
    by_cases hi : i=0
    · subst hi
      rfl
    · simp [linkedDevice,FlowTable.install,FlowTable.empty,Function.update_of_ne hi] at hr
  planned dir := by
    have hm : (0 : Vid)∈(linkedDevice.planOf dir 0).entries := by cases dir <;> decide
    exact ⟨0,le_rfl,smallConfig.cores_pos dir,hm⟩

theorem torn_down_linkedDevice :
    ∃ s,Reaches (Sys.step smallConfig) (Undisturbed 0 0) linkedDevice s ∧ s.ctl=.idle ∧
      s.TornDown 0 0 := by
  have h : (guardedRun (Sys.step smallConfig) (Undisturbed 0 0) linkedDevice
      (ctlSteps 20 18)).map (fun s => s.ctl.isIdle)=some true := by
    decide +kernel
  obtain ⟨s,hr,he⟩ := exists_reaches_of_guardedRun _ _ h
  have hidle := CtlPc.eq_idle he
  exact ⟨s,hr,hidle,torn_down_of_undisturbed _ 0 0 _ s linkedDevice_intact hr hidle⟩

/-- Two learning messages are queued. The slow path is inside link_vmdq for the second
one when destroy_device unlinks the device, and then writes DEVICE_RX. -/
def relinkDuringDestroy : List Action :=
  slowSteps 10 3 0++.newDevice 0::ctlSteps 20 14++
    [.issue ⟨0,ipv4Frame 5 1⟩,.issue ⟨0,ipv4Frame 5 1⟩]++slowSteps 40 16 2++
    .destroyDevice 0::ctlSteps 60 7++slowSteps 70 2 0++ctlSteps 80 1

/-- destroy_device has returned and no message is left, but the device is still in
vdev_list and its rule still in the NIC. -/
theorem destroy_returns_early :
    ∃ s L,Reaches (Sys.step smallConfig) anyStep (Sys.init smallConfig) s ∧ s.ctl=.idle ∧
      s.running 0=false ∧ s.slow.isDrained=true ∧ s.list=some L ∧ L.vdevs 0=some 0 ∧
      ¬s.flow.NoRule 0 ∧ ¬s.TornDown 0 0 := by
  have h : (guardedRun (Sys.step smallConfig) anyStep (Sys.init smallConfig)
      relinkDuringDestroy).map (fun s => (s.ctl.isIdle && !s.running 0 && s.slow.isDrained,
        s.list.map (·.vdevs 0),(s.flow.rules 0).map (·.owner)))=
      some (true,some (some 0),some 0) := by
    decide +kernel
  obtain ⟨s,hr,he⟩ := exists_reaches_of_guardedRun _ _ h
  simp only [Prod.mk.injEq,Bool.and_eq_true,Bool.not_eq_true'] at he
  obtain ⟨⟨⟨hidle,hrun⟩,hdrained⟩,hlist,hrule⟩ := he
  obtain ⟨L,hL,hv⟩ := Option.map_eq_some_iff.mp hlist
  obtain ⟨r,hr0,ho⟩ := Option.map_eq_some_iff.mp hrule
  refine ⟨s,L,hr,CtlPc.eq_idle hidle,hrun,hdrained,hL,hv,fun hno => hno 0 r hr0 ho,fun htd => ?_⟩
  exact htd.noRule 0 r hr0 ho

end Sys

end Umanet
