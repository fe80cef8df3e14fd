import Umanet.Framework.Run
import Umanet.Network.Flow

namespace Umanet

open Framework

/-- Tables of the control plane when every operation runs alone, with the
SLOW_MAC_LEARNING messages that vhost_rx_loop has queued. -/
structure Hist where
  list : VdevList
  devs : DevPtr → VhostDev
  nextDev : DevPtr
  route : Route
  flow : FlowTable
  queue : List (Vid × Data)

/-- One atomic operation. `ok` is the NIC's answer to a flow request. -/
inductive Op
  | newDevice (v : Vid)
  | destroyDevice (v : Vid) (ok : Bool)
  | issue (v : Vid) (d : Data)
  | learn (ok : Bool)

namespace Hist

/-- After register_vhost_drivers. -/
def init : Hist := ⟨.empty,fun _ => .fresh 0,0,initRouteTable,.empty,[]⟩

def newDevice (s : Hist) (v : Vid) : Hist :=
  if s.list.num≥maxVhosts then s
  else {s with
    list:=s.list.insert v s.nextDev
    devs:=Function.update s.devs s.nextDev (.fresh v)
    nextDev:=s.nextDev+1}

/-- Body of destroy_device once the device has been found. -/
def destroyFound (s : Hist) (v : Vid) (p : DevPtr) (ok : Bool) : Hist :=
  let u := unlinkVmdq (s.devs p) s.route
  {s with
    list:=s.list.remove v
    devs:=Function.update s.devs p u.1
    route:=u.2
    flow:=(s.flow.uninstall u.1 ok).2}

/-- One learning message for a device that is in the list. -/
def learnFound (s : Hist) (ethRxQueues : Nat) (p : DevPtr) (d : Data) (ok : Bool) : Hist :=
  let u := linkVmdq (s.devs p) s.route d
  {s with
    devs:=Function.update s.devs p u.1
    route:=u.2
    flow:=(s.flow.install ethRxQueues p u.1 ok).2}

/-- DPDK calls new_device only for an id without a device, and vhost_rx_loop
issues a message only while the device is learning. -/
def step (ethRxQueues : Nat) (s : Hist) : Op → Option Hist
  | .newDevice v => if s.list.live v then none else some (s.newDevice v)
  | .destroyDevice v ok =>
    match s.list.vdevs v with
    | none => some s
    | some p => some (s.destroyFound v p ok)
  | .issue v d =>
    match s.list.vdevs v with
    | none => none
    | some p =>
      if (s.devs p).ready=.macLearning then some {s with queue:=s.queue++[(v,d)]} else none
  | .learn ok =>
    match s.queue with
    | [] => none
    | (v,d)::q =>
      match s.list.vdevs v with
      | none => some {s with queue:=q}
      | some p => some ({s with queue:=q}.learnFound ethRxQueues p d ok)

/-- The device that the first message is about, with the frame it learns from. -/
def learning (s : Hist) : Option (Vid × DevPtr × Data) :=
  match s.queue with
  | [] => none
  | (v,d)::_ => (s.list.vdevs v).map fun p => (v,p,d)

def Wf (s : Hist) : Prop := ∀ v p,s.list.vdevs v=some p → (s.devs p).vid=v ∧ p < s.nextDev

/-- Every address of the configured /24 that resolves belongs to a live, learned
device with that address. -/
def RouteSound (base : Ip) (s : Hist) : Prop :=
  ∀ d,sameSubnet d base → 0 ≤ findVidByIp s.route d →
    ∃ (v : Vid) (p : DevPtr),findVidByIp s.route d=(v.val : Int) ∧ s.list.vdevs v=some p ∧
      (s.devs p).ready=.rx ∧ (s.devs p).ip=d

/-- What a learning step must find: the device owns no entry but the one of the
address it is about to have, and an entry it owns or takes lies in the /24. -/
def LearnOk (base : Ip) (s : Hist) : Op → Prop
  | .learn _ =>
    match s.queue with
    | [] => True
    | (v,d)::_ =>
      match s.list.vdevs v with
      | none => True
      | some p =>
        (∀ o,s.route o=(v.val : Int) → o=octet ((s.devs p).ipAfter d)) ∧
        (s.route (octet ((s.devs p).ipAfter d))=-1 ∨
          s.route (octet ((s.devs p).ipAfter d))=(v.val : Int) →
            sameSubnet ((s.devs p).ipAfter d) base)
  | _ => True

/-- Entry o belongs to a live, learned device whose address is in the /24 and
ends in o. -/
def EntrySound (base : Ip) (s : Hist) (o : Byte) : Prop :=
  ∃ (v : Vid) (p : DevPtr),s.route o=(v.val : Int) ∧ s.list.vdevs v=some p ∧
    (s.devs p).ready=.rx ∧ octet (s.devs p).ip=o ∧ sameSubnet (s.devs p).ip base

/-- Addresses of the /24 and entries of the table are in bijection. -/
theorem routeSound_iff (base : Ip) (s : Hist) :
    s.RouteSound base ↔ ∀ o,0 ≤ s.route o → s.EntrySound base o := by
  constructor
  · intro h o ho
    have hd := h (inSubnet base o) (inSubnet_same base o)
    rw [findVidByIp,inSubnet_octet] at hd
    obtain ⟨v,p,hv,hl,hr,hi⟩ := hd ho
    exact ⟨v,p,hv,hl,hr,by rw [hi,inSubnet_octet],by rw [hi]; exact inSubnet_same base o⟩
  · intro h d hd hf
    obtain ⟨v,p,hv,hl,hr,ho,hs⟩ := h (octet d) hf
    have hsub : sameSubnet (s.devs p).ip d := hs.trans hd.symm
    exact ⟨v,p,hv,hl,hr,eq_of_subnet_octet hsub ho⟩

theorem vid_inj {v u : Vid} (h : (v.val : Int)=(u.val : Int)) : v=u :=
  Fin.ext (by exact_mod_cast h)

/-- A device at a vid was there before, or it has just connected. -/
theorem step_vdevs {s t : Hist} {q : Nat} {op : Op} (h : s.step q op=some t) (u : Vid) :
    (∀ p∈t.list.vdevs u,s.list.vdevs u=some p) ∨ op=.newDevice u := by
  cases op with
  | newDevice v =>
    by_cases hu : u=v
    · exact .inr (by rw [hu])
    · left
      simp only [step] at h
      split at h
      · cases h
      · obtain rfl := Option.some.inj h
        unfold newDevice
        split
        · exact fun p hp => hp
        · intro p hp
          simpa [VdevList.insert,hu] using hp
  | destroyDevice v ok =>
    left
    simp only [step] at h
    split at h
    · obtain rfl := Option.some.inj h
      exact fun p hp => hp
    · obtain rfl := Option.some.inj h
      intro p hp
      by_cases hu : u=v
      · subst hu
        simp [destroyFound,VdevList.remove] at hp
      · simpa [destroyFound,VdevList.remove,hu] using hp
  | issue v d =>
    left
    simp only [step] at h
    split at h
    · cases h
    · split at h
      · obtain rfl := Option.some.inj h
        exact fun p hp => hp
      · cases h
  | learn ok =>
    left
    simp only [step] at h
    split at h
    · cases h
    · split at h
      · obtain rfl := Option.some.inj h
        exact fun p hp => hp
      · obtain rfl := Option.some.inj h
        exact fun p hp => hp

theorem Wf.inj {s : Hist} (h : s.Wf) {v u : Vid} {p : DevPtr} (hv : s.list.vdevs v=some p)
    (hu : s.list.vdevs u=some p) : v=u :=
  (h v p hv).1.symm.trans (h u p hu).1

theorem init_wf : init.Wf := by
  intro v p h
  simp [init,VdevList.empty] at h

theorem newDevice_wf {s : Hist} (h : s.Wf) (v : Vid) : (s.newDevice v).Wf := by
  unfold newDevice
  split
  · exact h
  · intro u p hu
    by_cases he : u=v
    · subst he
      have hp : s.nextDev=p := by simpa [VdevList.insert] using hu
      subst hp
      simp [VhostDev.fresh]
    · have hu' : s.list.vdevs u=some p := by simpa [VdevList.insert,he] using hu
      obtain ⟨h1,h2⟩ := h u p hu'
      exact ⟨by simpa [h2.ne] using h1,Nat.lt_succ_of_lt h2⟩

theorem update_wf {s t : Hist} (h : s.Wf) {p : DevPtr} {dev : VhostDev}
    (hd : dev.vid=(s.devs p).vid) (hl : ∀ v q,t.list.vdevs v=some q → s.list.vdevs v=some q)
    (ht : t.devs=Function.update s.devs p dev) (hn : t.nextDev=s.nextDev) : t.Wf := by
  intro v q hq
  obtain ⟨h1,h2⟩ := h v q (hl v q hq)
  rw [ht,hn]
  by_cases he : q=p
  · subst he
    exact ⟨by simpa using hd.trans h1,h2⟩
  · exact ⟨by simpa [he] using h1,h2⟩

theorem remove_vdevs {L : VdevList} {v u : Vid} {p : DevPtr} (h : (L.remove v).vdevs u=some p) :
    u≠v ∧ L.vdevs u=some p := by
  by_cases he : u=v
  · subst he
    simp [VdevList.remove] at h
  · exact ⟨he,by simpa [VdevList.remove,he] using h⟩

theorem destroyFound_nextDev (s : Hist) (v : Vid) (p : DevPtr) (ok : Bool) :
    (s.destroyFound v p ok).nextDev=s.nextDev := by
  unfold destroyFound
  rfl

theorem step_cases {q : Nat} {s t : Hist} {a : Op} (h : step q s a=some t) :
    (∃ v,a=.newDevice v ∧ s.list.vdevs v=none ∧ t=s.newDevice v) ∨
    (∃ v ok p,a=.destroyDevice v ok ∧ s.list.vdevs v=some p ∧ t=s.destroyFound v p ok) ∨
    (∃ v d ok p r,a=.learn ok ∧ s.queue=(v,d)::r ∧ s.list.vdevs v=some p ∧
      t={s with queue:=r}.learnFound q p d ok) ∨
    ((∃ r,t={s with queue:=r}) ∧ ∀ base,LearnOk base s a) := by
  cases a with
  | newDevice v =>
    simp only [step] at h
    split at h
    · cases h
    · rename_i hl
      have h' := Option.some.inj h
      subst h'
      exact Or.inl ⟨v,rfl,by simpa [VdevList.live] using hl,rfl⟩
  | destroyDevice v ok =>
    simp only [step] at h
    split at h
    · have h' := Option.some.inj h
      subst h'
      exact Or.inr (Or.inr (Or.inr ⟨⟨_,rfl⟩,fun _ => trivial⟩))
    · rename_i p hp
      have h' := Option.some.inj h
      subst h'
      exact Or.inr (Or.inl ⟨v,ok,p,rfl,hp,rfl⟩)
  | issue v d =>
    simp only [step] at h
    split at h
    · cases h
    · split at h
      · have h' := Option.some.inj h
        subst h'
        exact Or.inr (Or.inr (Or.inr ⟨⟨_,rfl⟩,fun _ => trivial⟩))
      · cases h
  | learn ok =>
    simp only [step] at h
    split at h
    · cases h
    · rename_i v d r hq
      split at h
      · rename_i hn
        have h' := Option.some.inj h
        subst h'
        refine Or.inr (Or.inr (Or.inr ⟨⟨r,rfl⟩,fun base => ?_⟩))
        simp [LearnOk,hq,hn]
      · rename_i p hp
        have h' := Option.some.inj h
        subst h'
        exact Or.inr (Or.inr (Or.inl ⟨v,d,ok,p,r,rfl,hq,hp,rfl⟩))

theorem step_wf {q : Nat} {s t : Hist} {a : Op} (h : s.Wf) (ht : step q s a=some t) : t.Wf := by
  rcases step_cases ht with ⟨v,_,_,rfl⟩ | ⟨v,ok,p,_,hp,rfl⟩ | ⟨v,d,ok,p,r,_,_,_,rfl⟩ |
    ⟨⟨r,rfl⟩,_⟩
  · exact newDevice_wf h v
  · exact update_wf (t:=s.destroyFound v p ok) h (unlinkVmdq_dev (s.devs p) s.route).1
      (fun u w hu => (remove_vdevs hu).2) rfl (destroyFound_nextDev s v p ok)
  · exact update_wf (s:={s with queue:=r}) h (linkVmdq_dev (s.devs p) s.route d).1
      (fun _ _ hu => hu) rfl rfl
  · exact h

theorem newDevice_sound {base : Ip} {s : Hist} (hw : s.Wf) (hs : s.RouteSound base) {v : Vid}
    (hv : s.list.vdevs v=none) : (s.newDevice v).RouteSound base := by
  unfold newDevice
  split
  · exact hs
  · rw [routeSound_iff] at hs ⊢
    intro o ho
    obtain ⟨u,p,hr,hl,h1,h2,h3⟩ := hs o ho
    have hu : u≠v := by intro e; rw [e,hv] at hl; cases hl
    have hp : p≠s.nextDev := (hw u p hl).2.ne
    exact ⟨u,p,hr,by simpa [VdevList.insert,hu] using hl,by simpa [hp] using h1,
      by simpa [hp] using h2,by simpa [hp] using h3⟩

/-- In a sound table the entry of `vdev->ip` is the only one destroy_device has to
clear. -/
theorem destroyFound_sound {base : Ip} {s : Hist} (hw : s.Wf) (hs : s.RouteSound base) {v : Vid}
    {p : DevPtr} (hp : s.list.vdevs v=some p) (ok : Bool) :
    (s.destroyFound v p ok).RouteSound base := by
  rw [routeSound_iff] at hs ⊢
  intro o ho
  simp only [destroyFound,unlinkVmdq_route] at ho
  have hn : ¬((s.devs p).ready=.rx ∧ o=octet (s.devs p).ip) := by
    intro hc
    rw [if_pos hc] at ho
    omega
  rw [if_neg hn] at ho
  obtain ⟨u,w,hr,hl,h1,h2,h3⟩ := hs o ho
  have hu : u≠v := by
    intro e
    subst e
    rw [hp] at hl
    cases hl
    exact hn ⟨h1,h2.symm⟩
  have hwp : w≠p := by intro e; subst e; exact hu (hw.inj hl hp)
  refine ⟨u,w,?_,by simpa [destroyFound,VdevList.remove,hu] using hl,
    by simpa [destroyFound,hwp] using h1,by simpa [destroyFound,hwp] using h2,
    by simpa [destroyFound,hwp] using h3⟩
  simpa only [destroyFound,unlinkVmdq_route,if_neg hn] using hr

section
variable {base : Ip} {s : Hist} {v : Vid} {p : DevPtr}

/-- The entry of the learned address is taken if it is free; the others stay. -/
theorem learnFound_route (hw : s.Wf) (q : Nat) (hp : s.list.vdevs v=some p) (d : Data) (ok : Bool)
    (o : Byte) : (s.learnFound q p d ok).route o=
      if o=octet ((s.devs p).ipAfter d) ∧ s.route o=-1 then (v.val : Int) else s.route o := by
  have hvid : (s.devs p).vid=v := (hw v p hp).1
  simp only [learnFound,linkVmdq_route,hvid]

theorem learnFound_route_kept (hw : s.Wf) (q : Nat) (hp : s.list.vdevs v=some p) (d : Data)
    (ok : Bool) {o : Byte} (ho : s.route o=(v.val : Int)) :
    (s.learnFound q p d ok).route o=(v.val : Int) := by
  have hne : s.route o≠-1 := by
    rw [ho]
    omega
  rw [learnFound_route hw q hp,if_neg (fun hc => hne hc.2)]
  exact ho

/-- An entry of v is sound afterwards iff it is the one of the learned address. -/
theorem learnFound_entry_own (q : Nat) (hp : s.list.vdevs v=some p) (d : Data) (ok : Bool)
    {o : Byte} (ho : (s.learnFound q p d ok).route o=(v.val : Int)) :
    (s.learnFound q p d ok).EntrySound base o ↔
      octet ((s.devs p).ipAfter d)=o ∧ sameSubnet ((s.devs p).ipAfter d) base := by
  obtain ⟨_,hip,hrd⟩ := linkVmdq_dev (s.devs p) s.route d
  have hdev : (s.learnFound q p d ok).devs p=(linkVmdq (s.devs p) s.route d).1 := by
    simp [learnFound]
  constructor
  · rintro ⟨u,w,hr,hl,h1,h2,h3⟩
    have hu : u=v := vid_inj (hr.symm.trans ho)
    subst hu
    have hwp : w=p := by
      have hl' : s.list.vdevs u=some w := hl
      rw [hp] at hl'
      exact (Option.some.inj hl').symm
    subst hwp
    rw [hdev,hip] at h2 h3
    exact ⟨h2,h3⟩
  · rintro ⟨h1,h2⟩
    exact ⟨v,p,ho,hp,by rw [hdev]; exact hrd,by rw [hdev,hip]; exact h1,by rw [hdev,hip]; exact h2⟩

theorem learnFound_entry_other (hw : s.Wf) (q : Nat) (hp : s.list.vdevs v=some p) (d : Data)
    (ok : Bool) {o : Byte} (hs : s.EntrySound base o) (hv : s.route o≠(v.val : Int))
    (ho : (s.learnFound q p d ok).route o=s.route o) :
    (s.learnFound q p d ok).EntrySound base o := by
  obtain ⟨u,w,hr,hl,h1,h2,h3⟩ := hs
  have hwp : w≠p := by
    rintro rfl
    have hu := hw.inj hl hp
    subst hu
    exact hv hr
  refine ⟨u,w,ho.trans hr,hl,?_,?_,?_⟩
  · simpa [learnFound,hwp] using h1
  · simpa [learnFound,hwp] using h2
  · simpa [learnFound,hwp] using h3

/-- A learning step keeps the table sound exactly when its precondition holds. -/
theorem learnFound_sound (hw : s.Wf) (hs : s.RouteSound base)
    (q : Nat) (hp : s.list.vdevs v=some p) (d : Data) (ok : Bool) :
    (s.learnFound q p d ok).RouteSound base ↔
      (∀ o,s.route o=(v.val : Int) → o=octet ((s.devs p).ipAfter d)) ∧
      (s.route (octet ((s.devs p).ipAfter d))=-1 ∨
        s.route (octet ((s.devs p).ipAfter d))=(v.val : Int) →
          sameSubnet ((s.devs p).ipAfter d) base) := by
  have hroute := learnFound_route hw q hp d ok
  rw [routeSound_iff] at hs ⊢
  constructor
  · intro h
    have mine (o : Byte) (ho : (s.learnFound q p d ok).route o=(v.val : Int)) :=
      (learnFound_entry_own q hp d ok ho).mp (h o (by rw [ho]; omega))
    constructor
    · intro o ho
      exact (mine o (learnFound_route_kept hw q hp d ok ho)).1.symm
    · rintro (hc | hc)
      · exact (mine _ ((hroute _).trans (if_pos ⟨rfl,hc⟩))).2
      · exact (mine _ (learnFound_route_kept hw q hp d ok hc)).2
  · rintro ⟨hc1,hc2⟩ o ho
    by_cases hf : o=octet ((s.devs p).ipAfter d) ∧ s.route o=-1
    · have ho' : (s.learnFound q p d ok).route o=(v.val : Int) := by rw [hroute,if_pos hf]
      exact (learnFound_entry_own q hp d ok ho').mpr ⟨hf.1.symm,hc2 (Or.inl (hf.1 ▸ hf.2))⟩
    · have hsame : (s.learnFound q p d ok).route o=s.route o := by rw [hroute,if_neg hf]
      rw [hsame] at ho
      by_cases hv : s.route o=(v.val : Int)
      · have he := hc1 o hv
        exact (learnFound_entry_own q hp d ok (hsame.trans hv)).mpr ⟨he.symm,hc2 (Or.inr (he ▸ hv))⟩
      · exact learnFound_entry_other hw q hp d ok (hs o ho) hv hsame

end

/-- One operation on a sound table leaves it sound exactly when it meets LearnOk. -/
theorem step_sound {base : Ip} {q : Nat} {s t : Hist} {a : Op} (hw : s.Wf)
    (hs : s.RouteSound base) (ht : step q s a=some t) : t.RouteSound base ↔ LearnOk base s a := by
  rcases step_cases ht with ⟨v,rfl,hv,rfl⟩ | ⟨v,ok,p,rfl,hp,rfl⟩ |
    ⟨v,d,ok,p,r,rfl,hq,hp,rfl⟩ | ⟨⟨r,rfl⟩,hok⟩
  · exact ⟨fun _ => trivial,fun _ => newDevice_sound hw hs hv⟩
  · exact ⟨fun _ => trivial,fun _ => destroyFound_sound hw hs hp ok⟩
  · rw [learnFound_sound (s:={s with queue:=r}) hw hs q hp d ok]
    simp only [LearnOk,hq,hp]
  · exact ⟨fun _ => hok base,fun _ => hs⟩

theorem init_sound (base : Ip) : init.RouteSound base := by
  intro d _ hf
  simp [init,findVidByIp,initRouteTable] at hf

/-- A history keeps every table state sound iff each of its learning steps finds no
foreign entry of its device and takes none outside the /24. -/
theorem route_sound_iff_learn_ok (base : Ip) (ethRxQueues : Nat) (ops : List Op) :
    Visits (step ethRxQueues) (RouteSound base) init ops ↔
      Meets (step ethRxQueues) (LearnOk base) init ops :=
  visits_iff_meets (I:=Wf) (fun h _ _ ht => step_wf h ht) (fun hw hs ht => step_sound hw hs ht)
    init ops init_wf (init_sound base)

/-- Two messages queued before the first is handled, with two source addresses. -/
def relearnThenDestroy : List Op :=
  [.newDevice 0,.issue 0 (ipv4Frame 5 1),.issue 0 (ipv4Frame 6 1),.learn true,.learn true,
    .destroyDevice 0 true]

/-- The entry of the first address survives the device: 192.168.100.5 resolves to
vid 0 while vdevs[0] is NULL. -/
theorem route_survives_destroy :
    ∃ s,run (step 1) init relearnThenDestroy=some s ∧
      findVidByIp s.route 0xC0A86405=0 ∧ s.list.vdevs 0=none ∧
      ¬s.RouteSound 0xC0A86401 := by
  have h : (run (step 1) init relearnThenDestroy).map
      (fun s => (findVidByIp s.route 0xC0A86405,s.list.vdevs 0))=some (0,none) := by
    decide +kernel
  obtain ⟨s,hs,he⟩ := Option.map_eq_some_iff.mp h
  obtain ⟨hr,hn⟩ := Prod.mk.inj he
  refine ⟨s,hs,hr,hn,fun hsound => ?_⟩
  obtain ⟨v,p,hv,hl,_⟩ := hsound 0xC0A86405 (by decide) hr.ge
  have h0 : v=0 := vid_inj (hv.symm.trans hr)
  rw [h0,hn] at hl
  cases hl

/-- The frame of destroy_device: an address that resolves to live device a still does
after device b is destroyed, unless b is linked and its address ends in the same octet. -/
theorem destroy_keeps_reachable_iff (ethRxQueues : Nat) (s t : Hist)
    (hs : Reaches (step ethRxQueues) anyStep init s) (a b : Vid) (hab : a≠b) (p q : DevPtr)
    (ha : s.list.vdevs a=some p) (hb : s.list.vdevs b=some q)
    (hfind : findVidByIp s.route (s.devs p).ip=(a.val : Int)) (ok : Bool)
    (ht : step ethRxQueues s (.destroyDevice b ok)=some t) :
    findVidByIp t.route (t.devs p).ip=(a.val : Int) ↔
      ¬((s.devs q).ready=.rx ∧ octet (s.devs q).ip=octet (s.devs p).ip) := by
  have hw : s.Wf := hs.invariant init_wf (fun h _ ht => step_wf h ht)
  have hpq : p≠q := fun e => hab (hw.inj ha (e ▸ hb))
  simp only [step,hb] at ht
  have ht' := Option.some.inj ht
  subst ht'
  have hip : ((s.destroyFound b q ok).devs p).ip=(s.devs p).ip := by
    simp [destroyFound,Function.update_of_ne hpq]
  have hroute : (s.destroyFound b q ok).route=(unlinkVmdq (s.devs q) s.route).2 := by
    unfold destroyFound
    rfl
  rw [findVidByIp] at hfind ⊢
  rw [hip,hroute,unlinkVmdq_route,hfind]
  by_cases hc : (s.devs q).ready=.rx ∧ octet (s.devs p).ip=octet (s.devs q).ip
  · -- the entry is cleared, and -1 is no vid
    rw [if_pos hc]
    constructor
    · intro h
      omega
    · intro h
      exact absurd ⟨hc.1,hc.2.symm⟩ h
  · rw [if_neg hc]
    exact ⟨fun _ h => hc ⟨h.1,h.2.symm⟩,fun _ => rfl⟩

/-- Device 0 learns 192.168.100.5, device 1 then 192.168.100.6. -/
def twoOctets : List Op :=
  [.newDevice 0,.newDevice 1,.issue 0 (ipv4Frame 5 1),.issue 1 (ipv4Frame 6 1),.learn true,
    .learn true]

theorem destroy_keeps_reachable_twoOctets :
    ∃ s t,Reaches (step 1) anyStep init s ∧ step 1 s (.destroyDevice 1 true)=some t ∧
      s.list.vdevs 0=some 0 ∧ s.list.vdevs 1=some 1 ∧ findVidByIp t.route (t.devs 0).ip=0 := by
  have hrun : (guardedRun (step 1) anyStep init twoOctets).map
      (fun s => (s.list.vdevs 0,s.list.vdevs 1,findVidByIp s.route (s.devs 0).ip,octet (s.devs 0).ip,
        octet (s.devs 1).ip,(step 1 s (.destroyDevice 1 true)).isSome))=
      some (some 0,some 1,0,5,6,true) := by decide +kernel
  obtain ⟨s,hs,hf⟩ := exists_reaches_of_guardedRun twoOctets _ hrun
  simp only [Prod.mk.injEq] at hf
  obtain ⟨h0,h1,hr,ho,ho',hsome⟩ := hf
  obtain ⟨t,ht⟩ := Option.isSome_iff_exists.mp hsome
  refine ⟨s,t,hs,ht,h0,h1,?_⟩
  have hiff := destroy_keeps_reachable_iff 1 s t hs 0 1 (by decide) 0 1 h0 h1 hr true ht
  exact hiff.mpr fun hc => by
    rw [ho,ho'] at hc
    exact absurd hc.2 (by decide)

/-- Both devices learn 192.168.100.5; the second route entry is refused. -/
def sameOctet : List Op :=
  [.newDevice 0,.newDevice 1,.issue 0 (ipv4Frame 5 1),.issue 1 (ipv4Frame 5 1),.learn true,
    .learn true]

/-- Destroying device 1 takes the entry of device 0 with it. -/
theorem destroy_hides_other :
    ∃ s t,Reaches (step 1) anyStep init s ∧ step 1 s (.destroyDevice 1 true)=some t ∧
      s.list.vdevs 0=some 0 ∧ t.list.vdevs 0=some 0 ∧ s.list.vdevs 1=some 1 ∧
      findVidByIp s.route (s.devs 0).ip=0 ∧ findVidByIp t.route (t.devs 0).ip=-1 := by
  have hrun : (guardedRun (step 1) anyStep init sameOctet).map
      (fun s => (s.list.vdevs 0,s.list.vdevs 1,findVidByIp s.route (s.devs 0).ip,
        (step 1 s (.destroyDevice 1 true)).map fun t =>
          (t.list.vdevs 0,findVidByIp t.route (t.devs 0).ip)))=
      some (some 0,some 1,0,some (some 0,-1)) := by decide +kernel
  obtain ⟨s,hs,hf⟩ := exists_reaches_of_guardedRun sameOctet _ hrun
  simp only [Prod.mk.injEq] at hf
  obtain ⟨h0,h1,hr,hstep⟩ := hf
  obtain ⟨t,ht,he⟩ := Option.map_eq_some_iff.mp hstep
  obtain ⟨hl,hroute⟩ := Prod.mk.inj he
  exact ⟨s,t,hs,ht,h0,hl,h1,hr,hroute⟩

end Hist

end Umanet
