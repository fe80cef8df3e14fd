import Umanet.System.Authentic
import Umanet.System.Switch

namespace Umanet

open Framework

/-- What an ingress loop finds for a packet: the route table, and as a record the switch and the
devices of that moment. -/
structure Lookup where
  route : Route
  switch : Switch
  devs : Vid → Option DevPtr

/-- A frame that a vid gets, with the device that is connected as this vid then. -/
structure Delivery where
  vid : Vid
  dev : Option DevPtr
  frame : Data

/-- Control plane and dataplane of a node. `looked` is what an ingress loop has found for the
packets of the burst it is classifying. The switch, `log`, which pairs every polled packet with
its look, and `got` are records. -/
structure Board (n : Node) (μ : Type) where
  hist : Hist
  data : Dataplane n μ
  looked : n.Rx → List Lookup
  switch : Switch
  log : List (Seen × Lookup)
  got : List Delivery

/-- An operation of the control plane, a look into the route table for the next packet of a
burst, the end of the classification loops, or any other step of a thread. -/
inductive BoardAct (n : Node) (μ : Type)
  | control (op : Op)
  | look (c : n.Rx)
  | rxPoll (c : Fin n.cfg.vhostRxCores) (vid : Vid) (learning : Bool) (pkts : List (μ × Data))
  | ethPoll (c : Fin n.cfg.ethRxCores) (queue : Nat) (snap : Option VdevList)
      (pkts : List (μ × Data × Mac))
  | thread (a : DataAct n μ)

variable {μ : Type}

/-- The packets of a burst of a VM with what was looked up for them. -/
def lookedUp (pkts : List (μ × Data)) (looked : List Lookup) : List (Polled μ) :=
  pkts.zipWith (fun x l => ⟨x.1,x.2,l.route⟩) looked

def nicLookedUp (pkts : List (μ × Data × Mac)) (looked : List Lookup) : List (NicPacket μ) :=
  pkts.zipWith (fun x l => ⟨⟨x.1,x.2.1,l.route⟩,x.2.2⟩) looked

def Seen.route : Seen → Route
  | .vhost _ r => r
  | .nic _ _ r => r

/-- The frame's destination address was the VM's when the frame was looked up: its vid's, and the
device's that is connected as this vid when it gets the frame. -/
def Lookup.Own (l : Lookup) (d : Data) (x : Delivery) : Prop :=
  l.switch.owner (flowKey d).dstIp=some x.vid ∧ ∀ p∈x.dev,l.devs x.vid=some p

namespace Board

variable {n : Node} [DecidableEq μ]

def init (n : Node) (pool : List μ) (mem : μ → Data) : Board n μ :=
  ⟨.init,.init n pool mem,fun _ => [],.empty,[],[]⟩

/-- A poll is a step of the dataplane on the packets and what was looked up for each. -/
def poll (s : Board n μ) (c : n.Rx) (a : DataAct n μ) : Option (Board n μ) :=
  (s.data.step a).map fun d => {s with
    data:=d
    looked:=Function.update s.looked c []
    log:=s.log++(Dataplane.newlySeen a).zip (s.looked c)}

def step (s : Board n μ) : BoardAct n μ → Option (Board n μ)
  | .control op => (s.hist.step n.cfg.ethRxQueues op).map fun h => {s with
      hist:=h
      switch:=(s.hist.switchOps op).foldl Switch.step s.switch}
  | .look c => some {s with
      looked:=Function.update s.looked c
        (s.looked c++[⟨s.hist.route,s.switch,s.hist.list.vdevs⟩])}
  | .rxPoll c vid learning pkts =>
    if pkts.length=(s.looked (.inl c)).length then
      s.poll (.inl c) (.rxPoll c vid learning (lookedUp pkts (s.looked (.inl c))))
    else none
  | .ethPoll c queue snap pkts =>
    if pkts.length=(s.looked (.inr c)).length then
      s.poll (.inr c) (.ethPoll c queue snap (nicLookedUp pkts (s.looked (.inr c))))
    else none
  | .thread a => if a.isPoll then none else (s.data.step a).map fun d => {s with
      data:=d
      got:=s.got++(d.delivered.drop s.data.delivered.length).map fun x =>
        ⟨x.1,s.hist.list.vdevs x.1,x.2⟩}

/-- Nothing is on its way to a vid: no ring, array or core has mbufs for it, and no look that is
still to be used finds it. -/
def Drained (s : Board n μ) (v : Vid) : Prop :=
  s.data.NothingFor v ∧ ∀ c,∀ l∈s.looked c,∀ o,l.route o≠(v.val : Int)

instance (s : Board n μ) (v : Vid) : Decidable (s.Drained v) :=
  inferInstanceAs (Decidable (_ ∧ _))

/-- Learning is clean, a vid is used again only when nothing is on its way to it any more, and no
mbuf gets a second owner. -/
def Clean (s : Board n μ) : BoardAct n μ → Prop
  | .control (.newDevice v) => s.Drained v
  | .control op => s.hist.CleanLearn n.cfg.ip op
  | .thread a => s.data.Sole a
  | _ => True

instance (s : Board n μ) : (a : BoardAct n μ) → Decidable (s.Clean a)
  | .control (.newDevice v) => inferInstanceAs (Decidable (s.Drained v))
  | .control (.destroyDevice v ok) =>
    inferInstanceAs (Decidable (s.hist.CleanLearn n.cfg.ip (.destroyDevice v ok)))
  | .control (.issue v d) => inferInstanceAs (Decidable (s.hist.CleanLearn n.cfg.ip (.issue v d)))
  | .control (.learn ok) => inferInstanceAs (Decidable (s.hist.CleanLearn n.cfg.ip (.learn ok)))
  | .thread a => inferInstanceAs (Decidable (s.data.Sole a))
  | .look _ => isTrue trivial
  | .rxPoll .. => isTrue trivial
  | .ethPoll .. => isTrue trivial

/-- The route table decides about every frame as the switch does. -/
def Mirrors (base : Ip) (r : Route) (sw : Switch) : Prop :=
  ∀ d,vhostVerdict base r d=sw.verdict base d ∧ ethVerdict base r d=sw.verdict base d

theorem Mirrors.vhost {cfg : Config} {rss : Softrss} {r : Route} {sw : Switch} {d : Data}
    (h : Mirrors cfg.ip r sw) : exitOf cfg rss (⟨(),d,r⟩ : Polled Unit)=
      (sw.verdict cfg.ip d).vhostExit (flowPickTx rss cfg.ethTxQueues (flowKey d)) := by
  rw [exitOf_verdict,(h d).1]

theorem Mirrors.nic {base : Ip} {r : Route} {sw : Switch} {d : Data} (h : Mirrors base r sw) :
    ethExitOf base (⟨(),d,r⟩ : Polled Unit)=(sw.verdict base d).ethExit := by
  rw [ethExitOf_verdict,(h d).2]

theorem vhostExit_vm {x : Verdict} {q : Nat} {v : Vid} (h : x.vhostExit q=.vm v) : x=.vm v := by
  cases x with
  | vm u => rw [Exit.vm.inj h]
  | _ => cases h

theorem ethExit_vm {x : Verdict} {v : Vid} (h : x.ethExit=.vm v) : x=.vm v := by
  cases x with
  | vm u => rw [Exit.vm.inj h]
  | _ => cases h

theorem owner_of_verdict {sw : Switch} {base : Ip} {d : Data} {v : Vid}
    (h : sw.verdict base d=.vm v) : sw.owner (flowKey d).dstIp=some v := by
  rw [Switch.verdict] at h
  split at h
  · cases h
  · split at h
    · cases hown : sw.owner (flowKey d).dstIp with
      | none =>
        rw [hown] at h
        cases h
      | some u =>
        rw [hown] at h
        rw [Verdict.vm.inj h]
    · cases h

theorem named_of_vidOf {z : Int} {v : Vid} (h : vidOf z=some v) : z=(v.val : Int) := by
  unfold vidOf at h
  split at h
  · next hz =>
    have hv := congrArg Fin.val (Option.some.inj h)
    change z.toNat=v.val at hv
    omega
  · cases h

theorem named_of_lookup {r : Route} {ip : Ip} {v : Vid} (h : lookupVerdict r ip=.vm v) :
    r (octet ip)=(v.val : Int) := by
  unfold lookupVerdict at h
  split at h
  · next u hu =>
    obtain rfl := Verdict.vm.inj h
    exact named_of_vidOf hu
  · cases h

theorem named_of_exit {x : Seen} {v : Vid} (h : x.exit n=.vm v) :
    ∃ o,x.route o=(v.val : Int) := by
  cases x with
  | vhost d r =>
    have hv : vhostVerdict n.cfg.ip r d=.vm v := by
      change exitOf n.cfg n.rss (⟨(),d,r⟩ : Polled Unit)=.vm v at h
      rw [exitOf_verdict] at h
      exact vhostExit_vm h
    unfold vhostVerdict at hv
    split at hv
    · cases hv
    · split at hv
      · exact ⟨_,named_of_lookup hv⟩
      · cases hv
  | nic vmMac d r =>
    have hv : ethVerdict n.cfg.ip r d=.vm v := by
      change ethExitOf n.cfg.ip (⟨(),d,r⟩ : Polled Unit)=.vm v at h
      rw [ethExitOf_verdict] at h
      exact ethExit_vm h
    unfold ethVerdict at hv
    split at hv
    · cases hv
    · split at hv
      · exact ⟨_,named_of_lookup hv⟩
      · cases hv

theorem mem_zip_looked {l : List Lookup} {seen : List Seen}
    (h : seen.map Seen.route=l.map Lookup.route) {x : Seen × Lookup} (hx : x∈seen.zip l) :
    x.1.route=x.2.route ∧ x.2∈l := by
  induction l generalizing seen with
  | nil => simp at hx
  | cons y l ih =>
    cases seen with
    | nil => cases hx
    | cons z seen =>
      obtain ⟨hz,hrest⟩ := List.cons.inj h
      cases hx with
      | head => exact ⟨hz,List.mem_cons_self⟩
      | tail _ hx => exact (ih hrest hx).imp_right (List.mem_cons_of_mem _)

theorem exists_look {l : List Lookup} {seen : List Seen} (h : seen.length=l.length) {x : Seen}
    (hx : x∈seen) : ∃ y,(x,y)∈seen.zip l := by
  have hmap : (seen.zip l).map Prod.fst=seen := List.map_fst_zip h.le
  rw [← hmap] at hx
  obtain ⟨⟨z,y⟩,hy,rfl⟩ := List.mem_map.mp hx
  exact ⟨y,hy⟩

omit [DecidableEq μ] in
theorem lookedUp_route {c : Fin n.cfg.vhostRxCores} {vid : Vid} {learning : Bool}
    {pkts : List (μ × Data)} {l : List Lookup} (h : pkts.length=l.length) :
    (Dataplane.newlySeen (.rxPoll c vid learning (lookedUp pkts l) : DataAct n μ)).map Seen.route=
      l.map Lookup.route := by
  simp only [Dataplane.newlySeen,lookedUp]
  induction l generalizing pkts with
  | nil => simp
  | cons y l ih =>
    cases pkts with
    | nil => cases h
    | cons x pkts =>
      simp only [List.zipWith_cons_cons,List.map_cons]
      exact congrArg _ (ih (Nat.succ.inj h))

omit [DecidableEq μ] in
theorem nicLookedUp_route {c : Fin n.cfg.ethRxCores} {queue : Nat} {snap : Option VdevList}
    {pkts : List (μ × Data × Mac)} {l : List Lookup} (h : pkts.length=l.length) :
    (Dataplane.newlySeen (.ethPoll c queue snap (nicLookedUp pkts l) : DataAct n μ)).map Seen.route=
      l.map Lookup.route := by
  simp only [Dataplane.newlySeen,nicLookedUp]
  induction l generalizing pkts with
  | nil => simp
  | cons y l ih =>
    cases pkts with
    | nil => cases h
    | cons x pkts =>
      simp only [List.zipWith_cons_cons,List.map_cons]
      exact congrArg _ (ih (Nat.succ.inj h))

/-- A look that finds the VM finds the device that is connected now, if one is. -/
def Current (vdevs : Vid → Option DevPtr) (v : Vid) (l : Lookup) : Prop :=
  ∀ p∈vdevs v,l.devs v=some p

instance (vdevs : Vid → Option DevPtr) (v : Vid) (l : Lookup) : Decidable (Current vdevs v l) :=
  Option.decidableForallMem _

/-- The packets that were looked up for the device that is connected as v now. -/
def view (s : Board n μ) (v : Vid) : List Seen :=
  (s.log.filter fun x => decide (Current s.hist.list.vdevs v x.2)).map Prod.fst

omit [DecidableEq μ] in
theorem mem_view {s : Board n μ} {v : Vid} {x : Seen} :
    x∈s.view v ↔ ∃ l,(x,l)∈s.log ∧ Current s.hist.list.vdevs v l := by
  simp [view]

/-- A delivery of a frame whose destination address was the VM's, as a VM or the NIC has sent it
but for the congestion mark or the headers of eth_rx_loop. -/
def Rightful (n : Node) (log : List (Seen × Lookup)) (x : Delivery) : Prop :=
  (∃ d r l,(.vhost d r,l)∈log ∧ l.Own d x ∧ (x.frame=d ∨ x.frame=n.mark d)) ∨
  ∃ vmMac d r l,(.nic vmMac d r,l)∈log ∧ l.Own d x ∧ x.frame=n.rxHeader vmMac d

theorem Rightful.mono {log log' : List (Seen × Lookup)} {x : Delivery} (hl : log⊆log')
    (h : Rightful n log x) : Rightful n log' x := by
  obtain ⟨d,r,l,hmem,h⟩ | ⟨vmMac,d,r,l,hmem,h⟩ := h
  · exact .inl ⟨d,r,l,hl hmem,h⟩
  · exact .inr ⟨vmMac,d,r,l,hl hmem,h⟩

/-- The dataplane is sound, the tables show the switch, every look was into a table that showed the
switch of that moment, no look finds a VM that has been replaced since, and all deliveries were
rightful. -/
structure Sound (pool : List μ) (s : Board n μ) : Prop where
  data : s.data.Sound pool s.view
  hist : s.hist.Shows n.cfg.ip s.switch
  looked : ∀ c,∀ l∈s.looked c,Mirrors n.cfg.ip l.route l.switch ∧
    ∀ v o,l.route o=(v.val : Int) → Current s.hist.list.vdevs v l
  seen : s.log.map Prod.fst=s.data.seen
  log : ∀ x∈s.log,Mirrors n.cfg.ip x.1.route x.2.switch
  got : ∀ x∈s.got,Rightful n s.log x
  delivered : s.got.map (fun x => (x.vid,x.frame))=s.data.delivered

theorem sound_init (pool : List μ) (mem : μ → Data) : Sound pool (init n pool mem) where
  data:=Dataplane.sound_init pool mem
  hist:=Hist.shows_init
  looked:=fun _ _ hl => by cases hl
  seen:=rfl
  log:=fun _ hx => by cases hx
  got:=fun _ hx => by cases hx
  delivered:=rfl

section
variable {pool : List μ} {s t : Board n μ}

omit [DecidableEq μ] in
theorem view_subset (hseen : s.log.map Prod.fst=s.data.seen) (v : Vid) : s.view v⊆s.data.seen := by
  intro x hx
  obtain ⟨l,hl,-⟩ := mem_view.mp hx
  rw [← hseen]
  exact List.mem_map_of_mem hl

/-- The control plane changes the connected devices. Only a VM that connects needs a look at the
dataplane. -/
theorem Sound.control (h : Sound pool s) {u : Hist} {sw : Switch}
    (hu : u.Shows n.cfg.ip sw)
    (hdev : ∀ v,s.Drained v ∨ ∀ p∈u.list.vdevs v,s.hist.list.vdevs v=some p) :
    Sound pool {s with hist:=u,switch:=sw} := by
  have hcur : ∀ v l,(∀ p∈u.list.vdevs v,s.hist.list.vdevs v=some p) →
      Current s.hist.list.vdevs v l → Current u.list.vdevs v l :=
    fun v l hv hl p hp => hl p (hv p hp)
  refine ⟨⟨h.data.owned,h.data.single,h.data.authentic.review fun v => ?_,view_subset h.seen⟩,hu,
    fun c l hl => ⟨(h.looked c l hl).1,fun v o ho => ?_⟩,h.seen,h.log,h.got,h.delivered⟩
  · obtain hd | hv := hdev v
    · exact .inr hd.1
    · refine .inl fun x hx => ?_
      obtain ⟨l,hl,hc⟩ := mem_view.mp hx
      exact mem_view.mpr ⟨l,hl,hcur v l hv hc⟩
  · obtain hd | hv := hdev v
    · exact absurd ho (hd.2 c l hl o)
    · exact hcur v l hv ((h.looked c l hl).2 v o ho)

theorem Sound.poll (hp : pool.Nodup) (h : Sound pool s) {c : n.Rx} {a : DataAct n μ}
    (ha : a.isPoll=true)
    (hroute : (Dataplane.newlySeen a).map Seen.route=(s.looked c).map Lookup.route)
    (ht : s.poll c a=some t) : Sound pool t := by
  obtain ⟨d,hd,rfl⟩ := Option.map_eq_some_iff.mp ht
  have hlogs := Dataplane.step_logs h.data.single hd
  have hlen : (Dataplane.newlySeen a).length=(s.looked c).length := by
    have hl := congrArg List.length hroute
    simpa only [List.length_map] using hl
  have hseen : (s.log++(Dataplane.newlySeen a).zip (s.looked c)).map Prod.fst=d.seen := by
    rw [List.map_append,List.map_fst_zip hlen.le,h.seen,hlogs.seen]
  refine ⟨h.data.step hp (s.data.sole_of_poll ha) (fun v x hx => ?_) (fun v x hx he => ?_)
    (view_subset hseen) hd,h.hist,?_,hseen,fun x hx => ?_,
    fun x hx => (h.got x hx).mono (List.subset_append_left _ _),?_⟩
  · obtain ⟨l,hl,hc⟩ := mem_view.mp hx
    exact mem_view.mpr ⟨l,List.mem_append_left _ hl,hc⟩
  · obtain ⟨l,hl⟩ := exists_look hlen hx
    obtain ⟨hr,hmem⟩ := mem_zip_looked hroute hl
    obtain ⟨o,ho⟩ := named_of_exit he
    rw [hr] at ho
    exact mem_view.mpr ⟨l,List.mem_append_right _ hl,(h.looked c l hmem).2 v o ho⟩
  · refine (Function.forall_update_iff s.looked fun _ looks => ∀ l∈looks,
      Mirrors n.cfg.ip l.route l.switch ∧
        ∀ v o,l.route o=(v.val : Int) → Current s.hist.list.vdevs v l).mpr
      ⟨fun x hx => ?_,fun c' _ => h.looked c'⟩
    cases hx
  · obtain hx | hx := List.mem_append.mp hx
    · exact h.log x hx
    · obtain ⟨hr,hmem⟩ := mem_zip_looked hroute hx
      rw [hr]
      exact (h.looked c _ hmem).1
  · rw [h.delivered]
    exact (Dataplane.delivered_of_poll ha hd).symm

theorem Sound.rightful (h : Sound pool s) {v : Vid} {f : Data} (hf : ForVm n (s.view v) v f) :
    Rightful n s.log ⟨v,s.hist.list.vdevs v,f⟩ := by
  obtain ⟨d,⟨r,hr,hexit⟩,hmark⟩ | ⟨vmMac,d,r,hr,hexit,hf⟩ := hf
  · obtain ⟨l,hl,hc⟩ := mem_view.mp hr
    have hmir : Mirrors n.cfg.ip r l.switch := h.log _ hl
    rw [hmir.vhost] at hexit
    exact .inl ⟨d,r,l,hl,⟨owner_of_verdict (vhostExit_vm hexit),hc⟩,hmark⟩
  · obtain ⟨l,hl,hc⟩ := mem_view.mp hr
    have hmir : Mirrors n.cfg.ip r l.switch := h.log _ hl
    rw [hmir.nic] at hexit
    exact .inr ⟨vmMac,d,r,l,hl,⟨owner_of_verdict (ethExit_vm hexit),hc⟩,hf⟩

theorem Sound.thread (hp : pool.Nodup) (h : Sound pool s) {a : DataAct n μ} {d : Dataplane n μ}
    (ha : ¬a.isPoll=true) (hg : s.data.Sole a) (hd : s.data.step a=some d) :
    Sound pool {s with
      data:=d
      got:=s.got++(d.delivered.drop s.data.delivered.length).map fun x =>
        ⟨x.1,s.hist.list.vdevs x.1,x.2⟩} := by
  have hlogs := Dataplane.step_logs h.data.single hd
  have hnone : Dataplane.newlySeen a=[] := by
    cases a with
    | rxPoll => exact absurd rfl ha
    | ethPoll => exact absurd rfl ha
    | _ => rfl
  have hseen : s.log.map Prod.fst=d.seen := by
    rw [h.seen,hlogs.seen,hnone,List.append_nil]
  obtain ⟨new,hnew,hall⟩ := h.data.authentic.delivered_step hlogs
  refine ⟨h.data.step hp hg (fun v => List.Subset.refl _) (fun v x hx => ?_) (view_subset hseen) hd,
    h.hist,h.looked,hseen,h.log,fun x hx => ?_,?_⟩
  · rw [hnone] at hx
    cases hx
  · obtain hx | hx := List.mem_append.mp hx
    · exact h.got x hx
    · rw [hnew,List.drop_left] at hx
      obtain ⟨y,hy,rfl⟩ := List.mem_map.mp hx
      exact h.rightful (hall y hy)
  · rw [List.map_append,List.map_map,h.delivered,hnew,List.drop_left]
    exact congrArg _ (List.map_id _)

theorem Sound.step (hbase : n.cfg.ip &&& subnetMask≠0) (hp : pool.Nodup) (h : Sound pool s)
    {a : BoardAct n μ} (hg : s.Clean a) (ht : s.step a=some t) : Sound pool t := by
  cases a with
  | control op =>
    obtain ⟨u,hu,rfl⟩ := Option.map_eq_some_iff.mp ht
    cases op with
    | newDevice v =>
      refine h.control (h.hist.step trivial hu) fun w => ?_
      by_cases hw : w=v
      · exact .inl (hw ▸ hg)
      · exact .inr ((Hist.step_vdevs hu w).resolve_right fun he => hw (Op.newDevice.inj he).symm)
    | _ =>
      exact h.control (h.hist.step hg hu) fun w =>
        .inr ((Hist.step_vdevs hu w).resolve_right fun he => by cases he)
  | look c =>
    obtain rfl := Option.some.inj ht
    refine ⟨h.data,h.hist,?_,h.seen,h.log,h.got,h.delivered⟩
    refine (Function.forall_update_iff s.looked fun _ looks => ∀ l∈looks,
      Mirrors n.cfg.ip l.route l.switch ∧
        ∀ v o,l.route o=(v.val : Int) → Current s.hist.list.vdevs v l).mpr
      ⟨fun x hx => ?_,fun c' _ => h.looked c'⟩
    obtain hx | hx := List.mem_append.mp hx
    · exact h.looked c x hx
    · rw [List.mem_singleton.mp hx]
      exact ⟨fun d => ⟨h.hist.vhostVerdict d,h.hist.ethVerdict hbase d⟩,fun v _ _ p hp => hp⟩
  | rxPoll c vid learning pkts =>
    simp only [Board.step] at ht
    split at ht
    · next hlen => exact h.poll hp rfl (lookedUp_route hlen) ht
    · cases ht
  | ethPoll c queue snap pkts =>
    simp only [Board.step] at ht
    split at ht
    · next hlen => exact h.poll hp rfl (nicLookedUp_route hlen) ht
    · cases ht
  | thread a =>
    simp only [Board.step] at ht
    split at ht
    · cases ht
    · next hpoll =>
      obtain ⟨d,hd,rfl⟩ := Option.map_eq_some_iff.mp ht
      exact h.thread hp hpoll hg hd

end

open Dataplane (relayNode)

end Board

end Umanet
