import Umanet.Framework.Refinement
import Umanet.Fast.Agreement
import Umanet.Vhost.RouteHistory

namespace Umanet

open Framework

/-- What the dataplane is for: a switch that knows which ports are in use and which port has
which address. -/
structure Switch where
  present : Vid → Bool
  owner : Ip → Option Vid

inductive SwitchOp
  | attach (v : Vid)
  | detach (v : Vid)
  | link (v : Vid) (ip : Ip)

namespace Switch

def empty : Switch := ⟨fun _ => false,fun _ => none⟩

/-- A port that leaves takes its addresses with it; a port that is not in use gets none. -/
def step (sw : Switch) : SwitchOp → Switch
  | .attach v => {sw with present:=Function.update sw.present v true}
  | .detach v => ⟨Function.update sw.present v false,
      fun a => if sw.owner a=some v then none else sw.owner a⟩
  | .link v ip =>
    if sw.present v then {sw with owner:=Function.update sw.owner ip (some v)} else sw

def verdict (sw : Switch) (base : Ip) (d : Data) : Verdict :=
  if gatewayArp base d then .slow
  else if dstIsLocalSubnet base d then
    match sw.owner (flowKey d).dstIp with
    | some v => .vm v
    | none => .unknown
  else .remote

end Switch

namespace Hist

/-- The operations of the switch that an operation of the control plane stands for. -/
def switchOps (s : Hist) : Op → List SwitchOp
  | .newDevice v => if s.list.num≥maxVhosts then [] else [.attach v]
  | .destroyDevice v _ => [.detach v]
  | .issue _ _ => []
  | .learn _ =>
    match s.queue with
    | [] => []
    | (v,d)::_ =>
      match learnedIp d with
      | some ip => [.link v ip]
      | none => []

/-- A device learns from a frame with a source address in the subnet that no other device has,
and it does not change its address. -/
def CleanFor (base : Ip) (s : Hist) (x : Vid × DevPtr × Data) : Prop :=
  ∃ ip∈learnedIp x.2.2,sameSubnet ip base ∧ ¬Taken s.route x.1 ip ∧
    ((s.devs x.2.1).ready=.rx → (s.devs x.2.1).ip=ip)

def CleanLearn (base : Ip) (s : Hist) : Op → Prop
  | .learn _ => ∀ x∈s.learning,CleanFor base s x
  | _ => True

instance (r : Route) (v : Vid) (ip : Ip) : Decidable (Taken r v ip) :=
  inferInstanceAs (Decidable (_ ∧ _))

instance (base : Ip) (s : Hist) (x : Vid × DevPtr × Data) : Decidable (CleanFor base s x) :=
  Option.decidableExistsMem _

instance (base : Ip) (s : Hist) : (a : Op) → Decidable (CleanLearn base s a)
  | .newDevice _ => isTrue trivial
  | .destroyDevice _ _ => isTrue trivial
  | .issue _ _ => isTrue trivial
  | .learn _ => Option.decidableForallMem _

/-- The tables show the state of the switch: the list its ports, the route table the owners of
the subnet's addresses, and the linked devices are the owners. -/
structure Shows (base : Ip) (s : Hist) (sw : Switch) : Prop where
  wf : s.Wf
  present : ∀ v,sw.present v=s.list.live v
  route : ∀ o,s.route o=match sw.owner (inSubnet base o) with
    | some v => (v.val : Int)
    | none => -1
  home : ∀ {a v},sw.owner a=some v → sameSubnet a base ∧
    ∃ p,s.list.vdevs v=some p ∧ (s.devs p).ready=.rx ∧ (s.devs p).ip=a
  linked : ∀ {v p},s.list.vdevs v=some p → (s.devs p).ready=.rx →
    sw.owner (s.devs p).ip=some v

section
variable {base : Ip} {s t : Hist} {sw : Switch}

theorem inSubnet_self {a : Ip} (h : sameSubnet a base) : inSubnet base (octet a)=a :=
  eq_of_subnet_octet ((inSubnet_same base _).trans h.symm) (inSubnet_octet base _)

theorem Shows.lookup (h : Shows base s sw) {a : Ip} (ha : sameSubnet a base) :
    findVidByIp s.route a=match sw.owner a with
      | some v => (v.val : Int)
      | none => -1 := by
  rw [findVidByIp,h.route,inSubnet_self ha]

theorem shows_init : Shows base init .empty :=
  ⟨init_wf,fun _ => rfl,fun _ => rfl,fun h => (by cases h),fun h => (by cases h)⟩

theorem Shows.queue (h : Shows base s sw) (r : List (Vid × Data)) :
    Shows base {s with queue:=r} sw := ⟨h.wf,h.present,h.route,h.home,h.linked⟩

theorem Shows.newDevice (h : Shows base s sw) {v : Vid} (hv : s.list.vdevs v=none)
    (hnum : ¬s.list.num≥maxVhosts) : Shows base (s.newDevice v) (sw.step (.attach v)) := by
  have hwf := newDevice_wf h.wf v
  rw [Hist.newDevice,if_neg hnum] at hwf ⊢
  have hold : ∀ {u p},u≠v → s.list.vdevs u=some p →
      (s.list.insert v s.nextDev).vdevs u=some p ∧ p≠s.nextDev := by
    intro u p hu hp
    refine ⟨?_,(h.wf u p hp).2.ne⟩
    simpa [VdevList.insert,hu] using hp
  refine ⟨hwf,fun u => ?_,h.route,fun {a u} ha => ?_,fun {u p} hp hr => ?_⟩
  · rw [VdevList.live_insert]
    by_cases hu : u=v
    · subst hu
      simp [Switch.step]
    · simp [Switch.step,hu,h.present u]
  · obtain ⟨hs,p,hp,hr,hi⟩ := h.home ha
    have hu : u≠v := by
      intro e
      rw [e,hv] at hp
      cases hp
    obtain ⟨hp',hne⟩ := hold hu hp
    refine ⟨hs,p,hp',?_,?_⟩
    · simpa [hne] using hr
    · simpa [hne] using hi
  · by_cases hu : u=v
    · subst hu
      have hp' : s.nextDev=p := by simpa [VdevList.insert] using hp
      subst hp'
      simp [VhostDev.fresh] at hr
    · have hp' : s.list.vdevs u=some p := by simpa [VdevList.insert,hu] using hp
      have hne := (hold hu hp').2
      have hdev : Function.update s.devs s.nextDev (.fresh v) p=s.devs p :=
        Function.update_of_ne hne _ _
      change sw.owner (Function.update s.devs s.nextDev (.fresh v) p).ip=some u
      change (Function.update s.devs s.nextDev (.fresh v) p).ready=.rx at hr
      rw [hdev] at hr ⊢
      exact h.linked hp' hr

theorem Shows.absent (h : Shows base s sw) {v : Vid} (hv : s.list.vdevs v=none) (a : Ip) :
    sw.owner a≠some v := by
  intro ha
  obtain ⟨-,p,hp,-⟩ := h.home ha
  rw [hv] at hp
  cases hp

/-- The addresses of a port are the one of its device, once that is linked. -/
theorem Shows.owner_iff (h : Shows base s sw) {v : Vid} {p : DevPtr} (hp : s.list.vdevs v=some p)
    (a : Ip) : sw.owner a=some v ↔ (s.devs p).ready=.rx ∧ (s.devs p).ip=a := by
  constructor
  · intro ha
    obtain ⟨-,p',hp',hr,hi⟩ := h.home ha
    rw [hp] at hp'
    have he := Option.some.inj hp'
    subst he
    exact ⟨hr,hi⟩
  · intro ha
    rw [← ha.2]
    exact h.linked hp ha.1

theorem Shows.destroyFound (h : Shows base s sw) {v : Vid} {p : DevPtr}
    (hp : s.list.vdevs v=some p) (ok : Bool) :
    Shows base (s.destroyFound v p ok) (sw.step (.detach v)) := by
  have hwf : (s.destroyFound v p ok).Wf :=
    update_wf (t:=s.destroyFound v p ok) h.wf (unlinkVmdq_dev (s.devs p) s.route).1
      (fun u w hu => (remove_vdevs hu).2) rfl (destroyFound_nextDev s v p ok)
  have hdev : ∀ {u w},u≠v → s.list.vdevs u=some w → (s.destroyFound v p ok).devs w=s.devs w := by
    intro u w hu hw
    have hne : w≠p := fun e => hu (h.wf.inj (e ▸ hw) hp)
    exact Function.update_of_ne hne _ _
  refine ⟨hwf,fun u => ?_,fun o => ?_,fun {a u} ha => ?_,fun {u w} hw hr => ?_⟩
  · change Function.update sw.present v false u=(s.list.remove v).live u
    rw [VdevList.live_remove]
    by_cases hu : u=v
    · subst hu
      simp
    · simp [hu,h.present u]
  · change (unlinkVmdq (s.devs p) s.route).2 o=_
    have hiff := h.owner_iff hp (inSubnet base o)
    rw [unlinkVmdq_route]
    simp only [Switch.step]
    by_cases ho : sw.owner (inSubnet base o)=some v
    · obtain ⟨hr,hi⟩ := hiff.mp ho
      have hoct : o=octet (s.devs p).ip := by rw [hi,inSubnet_octet]
      rw [if_pos ⟨hr,hoct⟩,if_pos ho]
    · rw [if_neg ho,if_neg,h.route o]
      intro hc
      apply ho
      apply hiff.mpr
      obtain ⟨hs,-⟩ := h.home (h.linked hp hc.1)
      refine ⟨hc.1,?_⟩
      rw [hc.2,inSubnet_self hs]
  · simp only [Switch.step] at ha
    split at ha
    · cases ha
    · next hne =>
      obtain ⟨hs,w,hw,hr,hi⟩ := h.home ha
      have hu : u≠v := fun e => hne (e ▸ ha)
      refine ⟨hs,w,?_,?_,?_⟩
      · change (s.list.remove v).vdevs u=some w
        simpa [VdevList.remove,hu] using hw
      · rw [hdev hu hw]
        exact hr
      · rw [hdev hu hw]
        exact hi
  · obtain ⟨hu,hw'⟩ := remove_vdevs hw
    rw [hdev hu hw'] at hr ⊢
    have hown := h.linked hw' hr
    simp only [Switch.step]
    rw [if_neg,hown]
    rw [hown]
    exact fun e => hu (Option.some.inj e)

theorem Shows.detach_absent (h : Shows base s sw) {v : Vid} (hv : s.list.vdevs v=none) :
    sw.step (.detach v)=sw := by
  have hlive : sw.present v=false := by
    rw [h.present,VdevList.live,hv]
    rfl
  have hp : Function.update sw.present v false=sw.present := by
    rw [← hlive,Function.update_eq_self]
  have ho : (fun a => if sw.owner a=some v then none else sw.owner a)=sw.owner := by
    funext a
    rw [if_neg (h.absent hv a)]
  rw [Switch.step,hp,ho]

theorem Shows.link_absent (h : Shows base s sw) {v : Vid} (hv : s.list.vdevs v=none) (ip : Ip) :
    sw.step (.link v ip)=sw := by
  rw [Switch.step,if_neg]
  rw [h.present,VdevList.live,hv]
  exact Bool.false_ne_true

theorem Shows.learnFound (h : Shows base s sw) {v : Vid} {p : DevPtr} {d : Data} {ip : Ip}
    {q : Nat} (ok : Bool) (hp : s.list.vdevs v=some p) (hip : learnedIp d=some ip)
    (hsub : sameSubnet ip base) (hfree : ¬Taken s.route v ip)
    (hsame : (s.devs p).ready=.rx → (s.devs p).ip=ip) :
    Shows base (s.learnFound q p d ok) (sw.step (.link v ip)) := by
  have hlive : sw.present v=true := by
    rw [h.present,VdevList.live,hp]
    rfl
  have hsw : sw.step (.link v ip)={sw with owner:=Function.update sw.owner ip (some v)} := by
    rw [Switch.step,if_pos hlive]
  obtain ⟨hvid,hdevip,hready⟩ := linkVmdq_dev (s.devs p) s.route d
  have hafter : (s.devs p).ipAfter d=ip := by rw [VhostDev.ipAfter,hip,Option.getD_some]
  rw [hafter] at hdevip
  have hself : (s.learnFound q p d ok).devs p=(linkVmdq (s.devs p) s.route d).1 :=
    Function.update_self ..
  have hdev : ∀ {u w},u≠v → s.list.vdevs u=some w → (s.learnFound q p d ok).devs w=s.devs w := by
    intro u w hu hw
    have hne : w≠p := fun e => hu (h.wf.inj (e ▸ hw) hp)
    exact Function.update_of_ne hne _ _
  have hnone : ∀ {u},sw.owner ip=some u → u=v := by
    intro u hu
    by_contra hne
    apply hfree
    have hroute := h.lookup hsub
    rw [hu] at hroute
    change s.route (octet ip)=(u.val : Int) at hroute
    refine ⟨?_,?_⟩
    · rw [hroute]
      omega
    · rw [hroute]
      exact fun e => hne (vid_inj e)
  have hwf : (s.learnFound q p d ok).Wf :=
    update_wf (t:=s.learnFound q p d ok) h.wf hvid (fun _ _ hu => hu) rfl rfl
  rw [hsw]
  refine ⟨hwf,h.present,fun o => ?_,fun {a u} ha => ?_,fun {u w} hw hr => ?_⟩
  · simp only
    rw [learnFound_route h.wf q hp,hafter]
    by_cases ho : o=octet ip
    · subst ho
      have hroute : s.route (octet ip)=_ := h.lookup hsub
      rw [inSubnet_self hsub,Function.update_self]
      cases hown : sw.owner ip with
      | none =>
        rw [hown] at hroute
        rw [if_pos ⟨rfl,hroute⟩]
      | some u =>
        have huv := hnone hown
        subst huv
        rw [hown] at hroute
        rw [if_neg,hroute]
        intro hc
        have hneg : (u.val : Int)=-1 := hroute.symm.trans hc.2
        omega
    · have hne : inSubnet base o≠ip := by
        intro e
        apply ho
        rw [← e,inSubnet_octet]
      rw [if_neg (fun hc => ho hc.1),Function.update_of_ne hne,h.route o]
  · change Function.update sw.owner ip (some v) a=some u at ha
    by_cases hai : a=ip
    · subst hai
      rw [Function.update_self] at ha
      have huv := Option.some.inj ha
      subst huv
      exact ⟨hsub,p,hp,by rw [hself]; exact hready,by rw [hself]; exact hdevip⟩
    · rw [Function.update_of_ne hai] at ha
      obtain ⟨hs,w,hw,hr,hi⟩ := h.home ha
      have hu : u≠v := by
        intro e
        subst e
        obtain ⟨hr',hi'⟩ := (h.owner_iff hp a).mp ha
        exact hai (hi'.symm.trans (hsame hr'))
      refine ⟨hs,w,hw,?_,?_⟩
      · rw [hdev hu hw]
        exact hr
      · rw [hdev hu hw]
        exact hi
  · change s.list.vdevs u=some w at hw
    change Function.update sw.owner ip (some v) _=some u
    by_cases hu : u=v
    · subst hu
      rw [hp] at hw
      have he := Option.some.inj hw
      subst he
      rw [hself,hdevip,Function.update_self]
    · rw [hdev hu hw] at hr ⊢
      have hown := h.linked hw hr
      have hne : (s.devs w).ip≠ip := fun e => hu (hnone (e ▸ hown))
      rw [Function.update_of_ne hne,hown]

/-- Every operation of the control plane is the operations of the switch it stands for. -/
theorem Shows.step {q : Nat} {a : Op} (h : Shows base s sw) (hg : CleanLearn base s a)
    (ht : s.step q a=some t) : Shows base t ((s.switchOps a).foldl Switch.step sw) := by
  cases a with
  | newDevice v =>
    simp only [Hist.step] at ht
    split at ht
    · cases ht
    · next hl =>
      have ht' := Option.some.inj ht
      subst ht'
      by_cases hnum : s.list.num≥maxVhosts
      · rw [switchOps,if_pos hnum,Hist.newDevice,if_pos hnum]
        exact h
      · rw [switchOps,if_neg hnum]
        exact h.newDevice (by simpa [VdevList.live] using hl) hnum
  | destroyDevice v ok =>
    simp only [Hist.step] at ht
    change Shows base t (sw.step (.detach v))
    split at ht
    · next hv =>
      have ht' := Option.some.inj ht
      subst ht'
      rw [h.detach_absent hv]
      exact h
    · next p hp =>
      have ht' := Option.some.inj ht
      subst ht'
      exact h.destroyFound hp ok
  | issue v d =>
    simp only [Hist.step] at ht
    split at ht
    · cases ht
    · split at ht
      · have ht' := Option.some.inj ht
        subst ht'
        exact h.queue _
      · cases ht
  | learn ok =>
    simp only [Hist.step] at ht
    split at ht
    · cases ht
    · next v d r hq =>
      simp only [switchOps,hq]
      split at ht
      · next hv =>
        have ht' := Option.some.inj ht
        subst ht'
        cases learnedIp d with
        | none => exact h.queue r
        | some ip =>
          change Shows base _ (sw.step (.link v ip))
          rw [h.link_absent hv]
          exact h.queue r
      · next p hp =>
        have ht' := Option.some.inj ht
        subst ht'
        have hlearn : (v,p,d)∈s.learning := by simp [learning,hq,hp]
        obtain ⟨ip,hip,hsub,hfree,hsame⟩ := hg _ hlearn
        have hip' : learnedIp d=some ip := hip
        rw [hip']
        exact (h.queue r).learnFound ok hp hip' hsub hfree hsame

theorem Shows.lookupVerdict (h : Shows base s sw) {a : Ip} (ha : sameSubnet a base) :
    lookupVerdict s.route a=match sw.owner a with
      | some v => .vm v
      | none => .unknown := by
  rw [Umanet.lookupVerdict,h.lookup ha]
  cases sw.owner a with
  | none => rfl
  | some v =>
    have hv : 0 ≤ (v.val : Int) ∧ (v.val : Int) < maxVhosts := by
      have hlt := v.isLt
      unfold maxVhosts at hlt ⊢
      omega
    simp only [vidOf,dif_pos hv,Int.toNat_natCast]

theorem Shows.vhostVerdict (h : Shows base s sw) (d : Data) :
    vhostVerdict base s.route d=sw.verdict base d := by
  rw [Umanet.vhostVerdict,Switch.verdict]
  split
  · rfl
  · by_cases hl : dstIsLocalSubnet base d=true
    · rw [if_pos (vhostLocalInt_ne_zero.mpr hl),if_pos hl]
      exact h.lookupVerdict (of_decide_eq_true hl)
    · rw [if_neg (mt vhostLocalInt_ne_zero.mp hl),if_neg hl]

theorem Shows.ethVerdict (h : Shows base s sw) (hbase : base &&& subnetMask≠0) (d : Data) :
    ethVerdict base s.route d=sw.verdict base d := by
  rw [Umanet.ethVerdict,Switch.verdict]
  split
  · rfl
  · by_cases hl : dstIsLocalSubnet base d=true
    · have hne := (local_iff hbase).mpr (vhostLocalInt_ne_zero.mpr hl)
      have haddr : BitVec.ofInt 32 (ethLocalInt base d)=(flowKey d).dstIp := by
        rw [ofInt_ethLocalInt,ethDstIsLocalSubnet_eq,if_pos hl]
      rw [if_pos hne,if_pos hl,haddr]
      exact h.lookupVerdict (of_decide_eq_true hl)
    · rw [if_neg (mt (local_iff hbase).mp (mt vhostLocalInt_ne_zero.mp hl)),if_neg hl]

end

/-- Over every history whose learning steps are clean, the two ingress loops forward every frame
as the switch does that the history stands for, and a frame goes only to a linked device with its
destination address. -/
theorem ingress_refines_switch (cfg : Config) (rss : Softrss) (hbase : cfg.ip &&& subnetMask≠0)
    {ops : List Op} {s : Hist} (h : run (step cfg.ethRxQueues) init ops=some s)
    (hm : Meets (step cfg.ethRxQueues) (CleanLearn cfg.ip) init ops) {μ : Type} (m : μ) (d : Data) :
    let sw := (trace (step cfg.ethRxQueues) switchOps init ops).foldl Switch.step .empty
    exitOf cfg rss ⟨m,d,s.route⟩=(sw.verdict cfg.ip d).vhostExit
        (flowPickTx rss cfg.ethTxQueues (flowKey d)) ∧
      ethExitOf cfg.ip ⟨m,d,s.route⟩=(sw.verdict cfg.ip d).ethExit ∧
      ∀ v,sw.verdict cfg.ip d=.vm v → ∃ p,s.list.vdevs v=some p ∧ (s.devs p).ready=.rx ∧
        (s.devs p).ip=(flowKey d).dstIp := by
  intro sw
  have hshow : Shows cfg.ip s sw :=
    run_refines (fun hr hg ht => Shows.step hr hg ht) ops shows_init h hm
  refine ⟨?_,?_,fun v hv => ?_⟩
  · rw [exitOf_verdict,hshow.vhostVerdict]
  · rw [ethExitOf_verdict,hshow.ethVerdict hbase]
  · rw [Switch.verdict] at hv
    split at hv
    · cases hv
    · split at hv
      · cases hown : sw.owner (flowKey d).dstIp with
        | none =>
          rw [hown] at hv
          cases hv
        | some u =>
          rw [hown] at hv
          have huv := Verdict.vm.inj hv
          subst huv
          exact (hshow.home hown).2
      · cases hv

/-- Two devices learn 192.168.100.5 and 192.168.100.6, and the first one leaves. -/
def learnAndLeave : List Op :=
  [.newDevice 2,.issue 2 (ipv4Frame 5 1),.newDevice 3,.issue 3 (ipv4Frame 6 1),.learn true,
    .learn true,.destroyDevice 2 true]

theorem ingress_refines_switch_learnAndLeave :
    ∃ s,run (step smallConfig.ethRxQueues) init learnAndLeave=some s ∧
      ethExitOf smallConfig.ip ⟨(),ipv4Frame 9 6,s.route⟩=.vm 3 ∧
      ethExitOf smallConfig.ip ⟨(),ipv4Frame 9 5,s.route⟩=.drop := by
  have hsome : (guardedRun (step smallConfig.ethRxQueues) (CleanLearn smallConfig.ip) init
      learnAndLeave).isSome=true := by decide +kernel
  obtain ⟨s,hs⟩ := Option.isSome_iff_exists.mp hsome
  obtain ⟨hrun,hm⟩ := meets_of_guardedRun _ hs
  have href := ingress_refines_switch smallConfig (fun _ _ => 0) (by decide) hrun hm ()
  refine ⟨s,hrun,?_,?_⟩
  · rw [(href (ipv4Frame 9 6)).2.1]
    decide +kernel
  · rw [(href (ipv4Frame 9 5)).2.1]
    decide +kernel

end Hist

end Umanet
