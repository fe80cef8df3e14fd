import Umanet.System.Threads

namespace Umanet

open Framework

/-- main is still on its way to slowpath_loop. -/
def SlowPc.starting : SlowPc → Prop
  | .main _ => True
  | _ => False

instance (pc : SlowPc) : Decidable pc.starting :=
  match pc with
  | .main _ => isTrue trivial
  | .loop | .deq _ | .msgs _ _ | .link _ _ _ _ _ | .calcStart _ | .calcLoad _ _ _
  | .calcBuild _ _ _ _ | .calcXchg _ _ _ _ | .calcFree _ _ _ _ => isFalse id

/-- `vdev_list_ptr->vdevs[v]` can be read and is a device. -/
def HasDevice (snap : Option VdevList) (v : Vid) : Prop := ∃ L,snap=some L ∧ L.live v=true

instance (snap : Option VdevList) (v : Vid) : Decidable (HasDevice snap v) :=
  match snap with
  | some L => decidable_of_iff (L.live v=true) ⟨fun h => ⟨L,rfl,h⟩,fun ⟨_,e,h⟩ => by cases e; exact h⟩
  | none => isFalse fun ⟨_,e,_⟩ => by cases e

/-- An eth_rx core inside a burst can dereference device v. -/
def EthPc.sees (v : Vid) : EthPc → Prop
  | .burst snap _ => HasDevice snap v
  | _ => True

instance (v : Vid) (pc : EthPc) : Decidable (pc.sees v) :=
  match pc with
  | .burst snap _ => inferInstanceAs (Decidable (HasDevice snap v))
  | .idle | .polled _ => isTrue trivial

namespace Sys

/-- When eth_rx_loop finds a valid vid for its next frame, the snapshot of the burst
is there and has the device. -/
def IngressSafe (cfg : Config) (s : Sys) : Prop :=
  ∀ c snap d frames (v : Vid),c < cfg.ethRxCores → s.eth c=.burst snap (d::frames) →
    ethLookup cfg.ip s.route d=some (v.val : Int) → HasDevice snap v

/-- destroy_device publishes a list without v only when no route entry names v. -/
def UnroutedFirst (s : Sys) (o : Oracle) : CtlPc → Prop
  | .dstCas v _ ver _ => s.listVer=ver ∧ o.spurious=false → ∀ b : Byte,s.route b≠v.val
  | _ => True

/-- link_vmdq enters a route only for a device of the current list that every burst
in progress sees too. -/
def VisibleFirst (cfg : Config) (s : Sys) : SlowPc → Prop
  | .link _ _ p _ (.routeSet _) => HasDevice s.list (s.devs p).vid ∧
      ∀ c,c < cfg.ethRxCores → (s.eth c).sees (s.devs p).vid
  | _ => True

/-- The route table never runs ahead of the lists in use: no burst starts before
init_route_table, devices are routed after all readers see them and dropped after
they are unrouted. -/
def Ordered (cfg : Config) (s : Sys) : Action → Prop
  | .ctl o => s.UnroutedFirst o s.ctl
  | .slow _ => s.VisibleFirst cfg s.slow
  | .ethLoad _ => ¬s.slow.starting
  | _ => True

instance (s : Sys) (o : Oracle) (pc : CtlPc) : Decidable (s.UnroutedFirst o pc) :=
  match pc with
  | .dstCas v _ ver _ => inferInstanceAs
      (Decidable (s.listVer=ver ∧ o.spurious=false → ∀ b : Byte,s.route b≠v.val))
  | .idle | .newCheck _ _ | .newLoad _ _ | .newCas _ _ _ _ | .add _ _ _ | .dstFind _
  | .unlink _ _ _ | .dstLoad _ _ | .remove _ _ _ _ | .uninstall _ _ => isTrue trivial

instance (cfg : Config) (s : Sys) (pc : SlowPc) : Decidable (s.VisibleFirst cfg pc) :=
  match pc with
  | .link _ _ p _ (.routeSet _) => inferInstanceAs (Decidable (HasDevice s.list (s.devs p).vid ∧
      ∀ c,c < cfg.ethRxCores → (s.eth c).sees (s.devs p).vid))
  | .link _ _ _ _ .mac | .link _ _ _ _ .ip | .link _ _ _ _ .vmId | .link _ _ _ _ .routeTest
  | .link _ _ _ _ .ready | .link _ _ _ _ .flowTest | .link _ _ _ _ .flowCreate
  | .main _ | .loop | .deq _ | .msgs _ _ | .calcStart _ | .calcLoad _ _ _ | .calcBuild _ _ _ _
  | .calcXchg _ _ _ _ | .calcFree _ _ _ _ => isTrue trivial

instance (cfg : Config) (s : Sys) (a : Action) : Decidable (s.Ordered cfg a) :=
  match a with
  | .ctl o => inferInstanceAs (Decidable (s.UnroutedFirst o s.ctl))
  | .slow _ => inferInstanceAs (Decidable (s.VisibleFirst cfg s.slow))
  | .ethLoad _ => inferInstanceAs (Decidable (¬s.slow.starting))
  | .newDevice _ | .destroyDevice _ | .issue _ | .ethPoll _ _ | .ethNext _ => isTrue trivial

/-- A list about to be published is an edit of the one it will replace. -/
def CopyOk (s : Sys) : CtlPc → Prop
  | .newCas v p ver new => ver ≤ s.listVer ∧ (s.listVer=ver → ∃ L,s.list=some L ∧ new=L.insert v p)
  | .dstCas v _ ver new => ver ≤ s.listVer ∧ (s.listVer=ver → ∃ L,s.list=some L ∧ new=L.remove v)
  | _ => True

/-- Every routed vid is a device of the published list and of every snapshot in use. -/
structure IngressInv (cfg : Config) (s : Sys) : Prop where
  routed : ¬s.slow.starting → ∀ (b : Byte) (v : Vid),s.route b=v.val → HasDevice s.list v
  seen : ∀ c,c < cfg.ethRxCores → ∀ (b : Byte) (v : Vid),s.route b=v.val → (s.eth c).sees v
  copy : s.CopyOk s.ctl

variable {cfg : Config} {s t : Sys}

theorem IngressInv.safe (h : s.IngressInv cfg) : s.IngressSafe cfg := by
  intro c snap d frames v hc he hv
  unfold ethLookup at hv
  split at hv
  · simp at hv
  · split at hv
    · have hs := h.seen c hc _ v (Option.some.inj hv)
      rw [he] at hs
      exact hs
    · simp at hv

theorem IngressInv.move (h : s.IngressInv cfg) (hm : s.slow.starting → t.slow.starting)
    (hc : s.CopyOk t.ctl) (hl : t.list=s.list := by rfl) (hv : t.listVer=s.listVer := by rfl)
    (hr : t.route=s.route := by rfl) (he : t.eth=s.eth := by rfl) : t.IngressInv cfg := by
  refine ⟨fun hn => ?_,by rw [hr,he]; exact h.seen,?_⟩
  · rw [hr,hl]
    exact h.routed fun e => hn (hm e)
  · cases ht : t.ctl with
    | newCas v p ver new =>
      rw [ht] at hc
      simpa only [CopyOk,hv,hl] using hc
    | dstCas v p ver new =>
      rw [ht] at hc
      simpa only [CopyOk,hv,hl] using hc
    | _ => trivial

theorem IngressInv.unroute (h : s.IngressInv cfg) (b : Byte) (pc : CtlPc) (hc : s.CopyOk pc) :
    IngressInv cfg {s with route:=Function.update s.route b (-1),ctl:=pc} := by
  have hold : ∀ (b' : Byte) (v : Vid),Function.update s.route b (-1) b'=v.val → s.route b'=v.val := by
    intro b' v hv
    by_cases hb : b'=b
    · subst hb
      rw [Function.update_self] at hv
      omega
    · rwa [Function.update_of_ne hb] at hv
  exact ⟨fun hn b' v hv => h.routed hn b' v (hold b' v hv),
    fun c hlt b' v hv => h.seen c hlt b' v (hold b' v hv),hc⟩

theorem hasDevice_insert {L : VdevList} {v u : Vid} {p : DevPtr} (h : HasDevice (some L) u) :
    HasDevice (some (L.insert v p)) u := by
  obtain ⟨L',e,hu⟩ := h
  have heq := Option.some.inj e
  subst heq
  refine ⟨_,rfl,?_⟩
  simp [VdevList.live_insert,hu]

theorem hasDevice_remove {L : VdevList} {v u : Vid} (h : HasDevice (some L) u) (hne : u≠v) :
    HasDevice (some (L.remove v)) u := by
  obtain ⟨L',e,hu⟩ := h
  have heq := Option.some.inj e
  subst heq
  refine ⟨_,rfl,?_⟩
  rw [VdevList.live_remove,if_neg hne,hu]

theorem newPublish_ingress (h : s.IngressInv cfg) {v : Vid} {p : DevPtr} {ver : Nat}
    {new : VdevList} {pc : CtlPc} (hc : s.ctl=.newCas v p ver new) (hver : s.listVer=ver)
    (hpc : ∀ t : Sys,t.CopyOk pc) :
    IngressInv cfg {s with list:=some new,listVer:=s.listVer+1,ctl:=pc} := by
  have hk := h.copy
  rw [hc] at hk
  obtain ⟨L,hl,rfl⟩ := hk.2 hver
  refine ⟨fun hn b u hu => ?_,h.seen,hpc _⟩
  have hd := h.routed hn b u hu
  rw [hl] at hd
  exact hasDevice_insert hd

theorem destroyPublish_ingress (h : s.IngressInv cfg) {v : Vid} {p : DevPtr} {ver : Nat}
    {new : VdevList} {pc : CtlPc} (hc : s.ctl=.dstCas v p ver new) (hver : s.listVer=ver)
    (hroute : ∀ b : Byte,s.route b≠v.val) (hpc : ∀ t : Sys,t.CopyOk pc) :
    IngressInv cfg {s with list:=some new,listVer:=s.listVer+1,ctl:=pc} := by
  have hk := h.copy
  rw [hc] at hk
  obtain ⟨L,hl,rfl⟩ := hk.2 hver
  refine ⟨fun hn b u hu => ?_,h.seen,hpc _⟩
  have hd := h.routed hn b u hu
  rw [hl] at hd
  refine hasDevice_remove hd fun e => ?_
  subst e
  exact hroute b hu

theorem unlinkStep_ingress (h : s.IngressInv cfg) (v : Vid) (p : DevPtr) (pc : UnlinkPc) :
    (s.unlinkStep v p pc).IngressInv cfg := by
  cases pc with
  | test | routeTest =>
    simp only [unlinkStep]
    split
    · exact h.move id trivial
    · exact h.move id trivial
  | routeClear b => exact h.unroute b _ trivial
  | _ => exact h.move id trivial

theorem ctlStep_ingress (h : s.IngressInv cfg) {L : VdevList} {o : Oracle}
    (hg : s.Ordered cfg (.ctl o)) (hl : s.list=some L) (ht : s.ctlStep cfg L o=some t) :
    t.IngressInv cfg := by
  cases hc : s.ctl with
  | idle => simp [ctlStep,hc] at ht
  | newLoad v p =>
    simp only [ctlStep,hc] at ht
    split at ht <;> obtain rfl := Option.some.inj ht
    · exact h.move id trivial
    · exact h.move id ⟨le_rfl,fun _ => ⟨L,hl,rfl⟩⟩
  | newCas v p ver new =>
    simp only [ctlStep,hc] at ht
    split at ht <;> obtain rfl := Option.some.inj ht
    · rename_i hcas
      exact newPublish_ingress h hc hcas.1 (fun _ => trivial)
    · exact h.move id trivial
  | add dir v pc =>
    simp only [ctlStep,hc] at ht
    obtain ⟨hf,hs,hctl⟩ := addStep_frame ht
    refine h.move (by rw [hs]; exact id) ?_ hf.list hf.listVer hf.route hf.eth
    obtain hctl | ⟨d,pc',hctl⟩ := hctl <;> rw [hctl] <;> trivial
  | unlink v p pc =>
    simp only [ctlStep,hc] at ht
    have ht' := Option.some.inj ht
    subst ht'
    exact unlinkStep_ingress h v p pc
  | dstLoad v p =>
    simp only [ctlStep,hc] at ht
    split at ht
    · have ht' := Option.some.inj ht
      subst ht'
      exact h.move id trivial
    · split at ht <;> obtain rfl := Option.some.inj ht
      · exact h.move id ⟨le_rfl,fun _ => ⟨L,hl,rfl⟩⟩
      · exact h.move id trivial
  | dstCas v p ver new =>
    simp only [ctlStep,hc] at ht
    rw [Ordered,hc] at hg
    split at ht <;> obtain rfl := Option.some.inj ht
    · rename_i hcas
      exact destroyPublish_ingress h hc hcas.1 (hg hcas) (fun _ => trivial)
    · exact h.move id trivial
  | remove dir v p pc =>
    simp only [ctlStep,hc] at ht
    obtain ⟨hf,hs,hctl⟩ := removeStep_frame ht
    refine h.move (by rw [hs]; exact id) ?_ hf.list hf.listVer hf.route hf.eth
    obtain hctl | hctl | ⟨d,pc',hctl⟩ := hctl <;> rw [hctl] <;> trivial
  | uninstall v p =>
    simp only [ctlStep,hc] at ht
    have ht' := Option.some.inj ht
    subst ht'
    exact h.move id trivial
  | newCheck v p | dstFind v =>
    simp only [ctlStep,hc] at ht
    split at ht <;> obtain rfl := Option.some.inj ht
    · exact h.move id trivial
    · exact h.move id trivial

theorem routeSet_ingress (h : s.IngressInv cfg) {snap : VdevList} {ms : List LearnMsg} {p : DevPtr}
    {d : Data} {b : Byte} (hc : s.slow=.link snap ms p d (.routeSet b))
    (hg : s.VisibleFirst cfg s.slow) :
    IngressInv cfg {s with
      route:=Function.update s.route b (s.devs p).vid.val
      slow:=.link snap ms p d .ready} := by
  rw [hc] at hg
  have hentry : ∀ (b' : Byte) (v : Vid),
      Function.update s.route b ((s.devs p).vid.val : Int) b'=v.val →
        v=(s.devs p).vid ∨ s.route b'=v.val := by
    intro b' v hv
    by_cases hb : b'=b
    · subst hb
      rw [Function.update_self] at hv
      exact Or.inl (Fin.ext (by omega))
    · rw [Function.update_of_ne hb] at hv
      exact Or.inr hv
  refine ⟨fun _ b' v hv => ?_,fun c hlt b' v hv => ?_,h.copy⟩
  · rcases hentry b' v hv with rfl | hold
    · exact hg.1
    · exact h.routed (by rw [hc]; exact id) b' v hold
  · rcases hentry b' v hv with rfl | hold
    · exact hg.2 c hlt
    · exact h.seen c hlt b' v hold

theorem slowStep_ingress (h : s.IngressInv cfg) {o : Oracle} (hg : s.Ordered cfg (.slow o))
    (ht : s.slowStep cfg o=some t) : t.IngressInv cfg := by
  have hn : ∀ {pc : SlowPc} {P : Prop},s.slow=pc → ¬pc.starting → s.slow.starting → P :=
    fun e hpc hs => absurd (e ▸ hs) hpc
  cases hc : s.slow with
  | main pc =>
    simp only [slowStep,hc] at ht
    have ht' := Option.some.inj ht
    subst ht'
    cases pc with
    | startEth => exact h.move (fun _ => trivial) h.copy
    | publishList =>
      refine ⟨fun hs => absurd trivial hs,h.seen,?_⟩
      -- a copy made before this publication is stale now
      have hstale : ∀ {n : Nat} {P : Prop},n ≤ s.listVer →
          n ≤ s.listVer+1 ∧ (s.listVer+1=n → P) := by
        intro n P hle
        refine ⟨by omega,fun e => ?_⟩
        omega
      have hk := h.copy
      cases hctl : s.ctl with
      | newCas v p ver new =>
        rw [hctl] at hk
        simp only [mainStep,hctl]
        exact hstale hk.1
      | dstCas v p ver new =>
        rw [hctl] at hk
        simp only [mainStep,hctl]
        exact hstale hk.1
      | _ =>
        simp only [mainStep,hctl]
        trivial
    | initRoute =>
      have hnone : ∀ (b : Byte) (v : Vid),initRouteTable b≠v.val := by
        intro b v
        unfold initRouteTable
        omega
      exact ⟨fun _ b v hv => absurd hv (hnone b v),fun _ _ b v hv => absurd hv (hnone b v),h.copy⟩
  | loop =>
    simp only [slowStep,hc] at ht
    obtain ⟨L,-,rfl⟩ := Option.map_eq_some_iff.mp ht
    exact h.move (hn hc id) h.copy
  | deq snap =>
    simp only [slowStep,hc] at ht
    split at ht
    · have ht' := Option.some.inj ht
      subst ht'
      exact h.move (hn hc id) h.copy
    · simp at ht
  | msgs snap ms =>
    cases ms <;> simp only [slowStep,hc] at ht <;> split at ht <;>
      obtain rfl := Option.some.inj ht <;> exact h.move (hn hc id) h.copy
  | link snap ms p d pc =>
    simp only [slowStep,hc] at ht
    have ht' := Option.some.inj ht
    subst ht'
    cases pc with
    | routeSet b => exact routeSet_ingress h hc hg
    | routeTest | flowTest =>
      simp only [linkStep]
      split
      · exact h.move (hn hc id) h.copy
      · exact h.move (hn hc id) h.copy
    | _ => exact h.move (hn hc id) h.copy
  | _ =>
    simp only [slowStep,hc] at ht
    obtain ⟨L,-,hs⟩ := Option.bind_eq_some_iff.mp ht
    obtain ⟨hf,hctl,-⟩ := calcStep_frame hs
    exact h.move (hn hc id) (hctl ▸ h.copy) hf.list hf.listVer hf.route hf.eth

theorem setEth_ingress (h : s.IngressInv cfg) {c : Nat} {pc : EthPc}
    (hpc : ∀ v,(s.eth c).sees v → pc.sees v) : (s.setEth c pc).IngressInv cfg := by
  refine ⟨h.routed,fun k hk b v hv => ?_,h.copy⟩
  have hs := h.seen k hk b v hv
  by_cases he : k=c
  · subst he
    simpa [setEth] using hpc v hs
  · simpa [setEth,Function.update_of_ne he] using hs

/-- A burst starts with the published list, which has every routed device. -/
theorem ethLoad_ingress (h : s.IngressInv cfg) (hg : ¬s.slow.starting) (c : Nat)
    (frames : List Data) : (s.setEth c (.burst s.list frames)).IngressInv cfg := by
  refine ⟨h.routed,fun k hk b v hv => ?_,h.copy⟩
  by_cases he : k=c
  · subst he
    simpa [setEth,EthPc.sees] using h.routed hg b v hv
  · simpa [setEth,Function.update_of_ne he] using h.seen k hk b v hv

theorem step_ingress (h : s.IngressInv cfg) {a : Action} (hg : s.Ordered cfg a)
    (ht : s.step cfg a=some t) : t.IngressInv cfg := by
  cases a with
  | newDevice v =>
    obtain ⟨-,-,-,rfl⟩ := step_newDevice ht
    exact h.move id trivial
  | destroyDevice v =>
    obtain ⟨-,-,rfl⟩ := step_destroyDevice ht
    exact h.move id trivial
  | ctl o =>
    obtain ⟨L,hl,hs⟩ := Option.bind_eq_some_iff.mp ht
    exact ctlStep_ingress h hg hl hs
  | slow o => exact slowStep_ingress h hg ht
  | issue m =>
    have ht' := Option.some.inj ht
    subst ht'
    exact ⟨h.routed,h.seen,h.copy⟩
  | ethPoll c frames =>
    obtain ⟨-,rfl⟩ := step_ethPoll ht
    exact setEth_ingress h fun _ _ => trivial
  | ethLoad c =>
    obtain ⟨frames,-,rfl⟩ := step_ethLoad ht
    exact ethLoad_ingress h hg c frames
  | ethNext c =>
    obtain ⟨snap,frames,he,rfl | rfl⟩ := step_ethNext ht
    · exact setEth_ingress h fun _ _ => trivial
    · exact setEth_ingress h fun v hv => by rw [he] at hv; exact hv

theorem init_ingress (cfg : Config) : (Sys.init cfg).IngressInv cfg :=
  ⟨fun hn => absurd trivial hn,fun _ _ _ _ _ => trivial,trivial⟩

/-- In a run that orders route entries, lists and bursts, eth_rx_loop never reaches
for a device its snapshot does not have. -/
theorem ingress_safe_of_ordered (cfg : Config) (s : Sys)
    (h : Reaches (Sys.step cfg) (Sys.Ordered cfg) (Sys.init cfg) s) : s.IngressSafe cfg :=
  (h.invariant (I:=Sys.IngressInv cfg) (init_ingress cfg)
    (fun hi hg ht => step_ingress hi hg ht)).safe

/-- A device is created, learnt as 192.168.100.5 and then sent a frame. -/
def learnThenReceive : List Action :=
  slowSteps 10 3 0++.newDevice 0::ctlSteps 20 14++.issue ⟨0,ipv4Frame 5 1⟩::slowSteps 40 11 1++
    [.ethPoll 0 [ipv4Frame 9 5],.ethLoad 0]

theorem ingress_safe_learnThenReceive :
    ∃ s,Reaches (Sys.step smallConfig) (Sys.Ordered smallConfig) (Sys.init smallConfig) s ∧
      ethLookup smallConfig.ip s.route (ipv4Frame 9 5)=some 0 ∧ s.IngressSafe smallConfig := by
  have h : (guardedRun (Sys.step smallConfig) (Sys.Ordered smallConfig) (Sys.init smallConfig)
      learnThenReceive).map (fun s => ethLookup smallConfig.ip s.route (ipv4Frame 9 5))=
      some (some 0) := by
    decide +kernel
  obtain ⟨s,hr,he⟩ := exists_reaches_of_guardedRun _ _ h
  exact ⟨s,hr,he,ingress_safe_of_ordered _ s hr⟩

/-- The NIC runs before register_vhost_drivers: a burst starts with vdev_list NULL, and
the zeroed route table resolves every local address to vid 0. -/
def receiveBeforeRegister : List Action :=
  slowSteps 10 1 0++[.ethPoll 0 [ipv4Frame 9 5],.ethLoad 0]

theorem null_list_dereferenced :
    ∃ s frames,Reaches (Sys.step smallConfig) anyStep (Sys.init smallConfig) s ∧
      s.eth 0=.burst none (ipv4Frame 9 5::frames) ∧
      ethLookup smallConfig.ip s.route (ipv4Frame 9 5)=some 0 ∧ ¬s.IngressSafe smallConfig := by
  have h : (guardedRun (Sys.step smallConfig) anyStep (Sys.init smallConfig)
      receiveBeforeRegister).isSome=true := by
    decide +kernel
  obtain ⟨s,hs⟩ := Option.isSome_iff_exists.mp h
  have heth : s.eth 0=.burst none [ipv4Frame 9 5] := by
    have hs' := Option.some.inj hs
    subst hs'
    rfl
  have hlook : ethLookup smallConfig.ip s.route (ipv4Frame 9 5)=some 0 := by
    have hs' := Option.some.inj hs
    subst hs'
    decide +kernel
  refine ⟨s,[],guardedRun_reaches _ hs,heth,hlook,fun hsafe => ?_⟩
  obtain ⟨L,hL,-⟩ := hsafe 0 none _ [] 0 (by decide) heth hlook
  cases hL

end Sys

end Umanet
