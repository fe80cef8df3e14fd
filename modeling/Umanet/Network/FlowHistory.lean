import Umanet.Vhost.RouteHistory

namespace Umanet

open Framework

/-- A history with a record of the flow calls: the handles rte_flow_destroy has taken, the
addresses of destroyed devices, the devices that have learned such an address, and whether
`eth_rx_flows` was accessed outside its slots. -/
structure FlowHist where
  hist : Hist
  destroyed : List Nat
  gone : List Ip
  back : DevPtr → Bool
  stray : Bool

/-- vm_id is an index of `eth_rx_flows`. -/
def flowIndex (vmId : Int) : Prop := 0 ≤ vmId ∧ vmId < maxVhosts

instance (vmId : Int) : Decidable (flowIndex vmId) := inferInstanceAs (Decidable (_ ∧ _))

namespace FlowHist

def init : FlowHist := ⟨.init,[],[],fun _ => false,false⟩

def destroy (s : FlowHist) (v : Vid) (p : DevPtr) (ok : Bool) : FlowHist where
  hist:=s.hist.destroyFound v p ok
  destroyed:=s.destroyed++
    if ok then (s.hist.flow.ethRxFlows (s.hist.devs p).vmId).toList else []
  gone:=if (s.hist.devs p).ready=.rx then s.gone++[(s.hist.devs p).ip] else s.gone
  back:=s.back
  stray:=s.stray || !decide (flowIndex (s.hist.devs p).vmId)

/-- The device as link_vmdq leaves it. -/
def linked (s : FlowHist) (p : DevPtr) (d : Data) : VhostDev :=
  (linkVmdq (s.hist.devs p) s.hist.route d).1

def learn (s : FlowHist) (ethRxQueues : Nat) (p : DevPtr) (d : Data) (ok : Bool) : FlowHist where
  hist:=s.hist.learnFound ethRxQueues p d ok
  destroyed:=s.destroyed
  gone:=s.gone
  back:=Function.update s.back p (decide ((s.linked p d).ip∈s.gone))
  stray:=s.stray || !decide (flowIndex (s.linked p d).vmId)

/-- `Hist.step` with the record. -/
def step (ethRxQueues : Nat) (s : FlowHist) : Op → Option FlowHist
  | .newDevice v => (s.hist.step ethRxQueues (.newDevice v)).map fun h => {s with hist:=h}
  | .destroyDevice v ok =>
    match s.hist.list.vdevs v with
    | none => some s
    | some p => some (s.destroy v p ok)
  | .issue v d => (s.hist.step ethRxQueues (.issue v d)).map fun h => {s with hist:=h}
  | .learn ok =>
    match s.hist.queue with
    | [] => none
    | (v,d)::r =>
      match s.hist.list.vdevs v with
      | none => some {s with hist:={s.hist with queue:=r}}
      | some p => some ({s with hist:={s.hist with queue:=r}}.learn ethRxQueues p d ok)

theorem step_hist (q : Nat) (s : FlowHist) (a : Op) :
    (s.step q a).map FlowHist.hist=s.hist.step q a := by
  cases a with
  | newDevice v => simp [step,Function.comp_def]
  | destroyDevice v ok =>
    simp only [step,Hist.step]
    cases s.hist.list.vdevs v <;> rfl
  | issue v d => simp [step,Function.comp_def]
  | learn ok =>
    simp only [step,Hist.step]
    cases s.hist.queue with
    | nil => rfl
    | cons m r =>
      dsimp only
      cases s.hist.list.vdevs m.1 <;> rfl

/-- A slot is in use iff the NIC holds a rule created for its VM id. -/
def Coherent (s : FlowHist) : Prop :=
  ∀ k,flowIndex k →
    ((s.hist.flow.ethRxFlows k).isSome=true ↔ ∃ h r,s.hist.flow.rules h=some r ∧ r.vmId=k)

/-- A rule made for device p that takes its MAC to the queue of its VM id is alive. -/
def HasRule (ethRxQueues : Nat) (t : FlowTable) (p : DevPtr) (dev : VhostDev) : Prop :=
  ∃ h r,t.rules h=some r ∧ r.owner=p ∧ r.vmId=dev.vmId ∧ r.mac=dev.mac ∧
    r.queue=FlowTable.queueOf dev.vmId ethRxQueues

/-- Every live device that came back with the address of a destroyed one has a rule of its
own for its current MAC. -/
def Renewed (ethRxQueues : Nat) (s : FlowHist) : Prop :=
  ∀ v p,s.hist.list.vdevs v=some p → s.back p=true →
    HasRule ethRxQueues s.hist.flow p (s.hist.devs p)

structure InStep (ethRxQueues : Nat) (s : FlowHist) : Prop where
  coherent : s.Coherent
  once : s.destroyed.Nodup
  renewed : s.Renewed ethRxQueues
  bounds : s.stray=false

/-- What a step must find. No rule may be destroyed, because its slot keeps the handle; a
device that learns the address of a destroyed one must find its slot free and get a rule,
unless it has the right one already. -/
def FlowOk (ethRxQueues : Nat) (s : FlowHist) : Op → Prop
  | .destroyDevice v ok =>
    match s.hist.list.vdevs v with
    | none => True
    | some p => flowIndex (s.hist.devs p).vmId ∧
        (s.hist.flow.ethRxFlows (s.hist.devs p).vmId=none ∨ ok=false)
  | .learn ok =>
    match s.hist.queue with
    | [] => True
    | (v,d)::_ =>
      match s.hist.list.vdevs v with
      | none => True
      | some p => flowIndex (s.linked p d).vmId ∧ ((s.linked p d).ip∈s.gone →
          (s.hist.flow.ethRxFlows (s.linked p d).vmId=none ∧ ok=true) ∨
          HasRule ethRxQueues s.hist.flow p (s.linked p d))
  | _ => True

theorem step_cases {q : Nat} {s t : FlowHist} {a : Op} (h : s.step q a=some t) :
    (∃ v,a=.newDevice v ∧ s.hist.list.vdevs v=none ∧ t={s with hist:=s.hist.newDevice v}) ∨
    (∃ v ok p,a=.destroyDevice v ok ∧ s.hist.list.vdevs v=some p ∧ t=s.destroy v p ok) ∨
    (∃ v d ok p r,a=.learn ok ∧ s.hist.queue=(v,d)::r ∧ s.hist.list.vdevs v=some p ∧
      t={s with hist:={s.hist with queue:=r}}.learn q p d ok) ∨
    (∃ r,t={s with hist:={s.hist with queue:=r}} ∧ FlowOk q s a) := by
  cases a with
  | newDevice v =>
    simp only [step,Hist.step] at h
    split at h
    · simp at h
    · rename_i hl
      have h' := Option.some.inj h
      subst h'
      exact Or.inl ⟨v,rfl,by simpa [VdevList.live] using hl,rfl⟩
  | destroyDevice v ok =>
    simp only [step] at h
    split at h
    · rename_i hn
      have h' := Option.some.inj h
      subst h'
      exact Or.inr (Or.inr (Or.inr ⟨s.hist.queue,rfl,by simp [FlowOk,hn]⟩))
    · rename_i p hp
      have h' := Option.some.inj h
      subst h'
      exact Or.inr (Or.inl ⟨v,ok,p,rfl,hp,rfl⟩)
  | issue v d =>
    simp only [step,Hist.step] at h
    split at h
    · simp at h
    · split at h
      · have h' := Option.some.inj h
        subst h'
        exact Or.inr (Or.inr (Or.inr ⟨_,rfl,trivial⟩))
      · simp at h
  | learn ok =>
    simp only [step] at h
    split at h
    · simp at h
    · rename_i v d r hq
      split at h
      · rename_i hn
        have h' := Option.some.inj h
        subst h'
        exact Or.inr (Or.inr (Or.inr ⟨r,rfl,by simp [FlowOk,hq,hn]⟩))
      · rename_i p hp
        have h' := Option.some.inj h
        subst h'
        exact Or.inr (Or.inr (Or.inl ⟨v,d,ok,p,r,rfl,hq,hp,rfl⟩))

/-- What holds in a history as long as its steps are FlowOk: the table is exact, and
rte_flow_destroy has taken no handle. -/
structure Inv (s : FlowHist) : Prop where
  wf : s.hist.Wf
  table : s.hist.flow.Exact
  back : ∀ p,s.back p=true → p < s.hist.nextDev
  kept : s.destroyed=[]

theorem coherent_of_exact {s : FlowHist} (h : s.hist.flow.Exact) : s.Coherent := by
  intro k _
  constructor
  · intro hs
    obtain ⟨i,hi⟩ := Option.isSome_iff_exists.mp hs
    obtain ⟨r,hr,hk⟩ := h.slot k i hi
    exact ⟨i,r,hr,hk⟩
  · rintro ⟨i,r,hr,hk⟩
    rw [← hk,h.rule i r hr]
    rfl

theorem step_wf {q : Nat} {s t : FlowHist} {a : Op} (h : s.hist.Wf) (ht : s.step q a=some t) :
    t.hist.Wf := by
  have hs := step_hist q s a
  rw [ht] at hs
  exact Hist.step_wf h hs.symm

section
variable {s : FlowHist} {v : Vid} {p : DevPtr} {ok : Bool} {q : Nat}

theorem destroy_hist (s : FlowHist) (v : Vid) (p : DevPtr) (ok : Bool) :
    (s.destroy v p ok).hist=s.hist.destroyFound v p ok := by
  unfold destroy
  rfl

theorem destroy_flow (s : FlowHist) (v : Vid) (p : DevPtr) (ok : Bool) :
    (s.destroy v p ok).hist.flow=
      (s.hist.flow.uninstall (unlinkVmdq (s.hist.devs p) s.hist.route).1 ok).2 := by
  rw [destroy_hist]
  unfold Hist.destroyFound
  rfl

theorem destroy_idle (h : s.hist.flow.ethRxFlows (s.hist.devs p).vmId=none ∨ ok=false) :
    (s.destroy v p ok).hist.flow=s.hist.flow ∧ (s.destroy v p ok).destroyed=s.destroyed := by
  constructor
  · rw [destroy_flow]
    exact FlowTable.uninstall_idle _ _ (by rw [unlinkVmdq_vmId]; exact h)
  · unfold destroy
    rcases h with h | h
    · simp [h]
    · simp [h]

theorem destroy_other (hw : s.hist.Wf) (hv : s.hist.list.vdevs v=some p) {u : Vid} {w : DevPtr}
    (hu : (s.destroy v p ok).hist.list.vdevs u=some w) :
    s.hist.list.vdevs u=some w ∧ (s.destroy v p ok).hist.devs w=s.hist.devs w := by
  obtain ⟨hne,hu'⟩ := Hist.remove_vdevs hu
  have hwp : w≠p := fun e => hne (hw.inj hu' (e ▸ hv))
  refine ⟨hu',?_⟩
  rw [destroy_hist]
  unfold Hist.destroyFound
  exact Function.update_of_ne hwp ..

/-- destroy_device keeps the table in step exactly when it removes no rule. -/
theorem destroy_inStep (hi : s.Inv) (hp : s.InStep q) (hv : s.hist.list.vdevs v=some p) :
    (s.destroy v p ok).InStep q ↔ flowIndex (s.hist.devs p).vmId ∧
      (s.hist.flow.ethRxFlows (s.hist.devs p).vmId=none ∨ ok=false) := by
  have hstray : (s.destroy v p ok).stray=!decide (flowIndex (s.hist.devs p).vmId) := by
    rw [destroy,hp.bounds,Bool.false_or]
  constructor
  · intro h
    have hidx : flowIndex (s.hist.devs p).vmId := by
      have hb := h.bounds
      rw [hstray] at hb
      simpa using hb
    refine ⟨hidx,?_⟩
    by_contra hc
    push Not at hc
    obtain ⟨i,hslot⟩ := Option.ne_none_iff_exists'.mp hc.1
    have hok : ok=true := by simpa using hc.2
    subst hok
    have hvm := unlinkVmdq_vmId (s.hist.devs p) s.hist.route
    have hslot' : s.hist.flow.ethRxFlows (unlinkVmdq (s.hist.devs p) s.hist.route).1.vmId=some i := by
      rw [hvm]
      exact hslot
    obtain ⟨hs,hn⟩ := FlowTable.uninstall_stale hi.table hslot'
    rw [hvm] at hs hn
    have hcoh := h.coherent _ hidx
    rw [destroy_flow] at hcoh
    obtain ⟨j,r,hr,hk⟩ := hcoh.mp (Option.isSome_iff_exists.mpr ⟨i,hs⟩)
    exact hn j r hr hk
  · rintro ⟨hidx,hidle⟩
    obtain ⟨hflow,hdest⟩ := destroy_idle (v:=v) hidle
    refine ⟨coherent_of_exact (by rw [hflow]; exact hi.table),by rw [hdest]; exact hp.once,
      fun u w hu hb => ?_,by simpa [hstray] using hidx⟩
    obtain ⟨hu',hd⟩ := destroy_other hi.wf hv hu
    rw [hflow,hd]
    exact hp.renewed u w hu' hb

theorem destroy_inv (hi : s.Inv)
    (h : s.hist.flow.ethRxFlows (s.hist.devs p).vmId=none ∨ ok=false)
    (hw : (s.destroy v p ok).hist.Wf) : (s.destroy v p ok).Inv := by
  obtain ⟨hflow,hdest⟩ := destroy_idle (v:=v) h
  have hback : (s.destroy v p ok).back=s.back := by
    unfold destroy
    rfl
  refine ⟨hw,by rw [hflow]; exact hi.table,?_,by rw [hdest]; exact hi.kept⟩
  rw [hback,destroy_hist,Hist.destroyFound_nextDev]
  exact hi.back

variable {d : Data}

theorem HasRule.install {t : FlowTable} (ht : t.Exact) {dev dev' : VhostDev} {w : DevPtr}
    (h : HasRule q t w dev) : HasRule q (t.install q p dev' ok).2 w dev := by
  obtain ⟨i,r,hr,h'⟩ := h
  exact ⟨i,r,FlowTable.install_keeps ht q p dev' ok hr,h'⟩

/-- A device has its rule after install_eth_rx_flow if a rule was created or was there. -/
theorem hasRule_install {t : FlowTable} (ht : t.Exact) (dev : VhostDev) :
    HasRule q (t.install q p dev ok).2 p dev ↔
      (t.ethRxFlows dev.vmId=none ∧ ok=true) ∨ HasRule q t p dev := by
  constructor
  · intro h
    rcases t.install_cases q p dev ok with ⟨-,he⟩ | ⟨-,-,he⟩ | ⟨hnone,hok,-⟩
    · rw [he] at h
      exact Or.inr h
    · rw [he] at h
      exact Or.inr h
    · exact Or.inl ⟨hnone,hok⟩
  · rintro (⟨hnone,hok⟩ | h)
    · rcases t.install_cases q p dev ok with ⟨hs,-⟩ | ⟨-,hno,-⟩ | ⟨-,-,he⟩
      · simp [hnone] at hs
      · simp [hok] at hno
      · rw [he]
        exact ⟨t.nextHandle,_,Function.update_self ..,rfl,rfl,rfl,rfl⟩
    · exact h.install ht

/-- Learning keeps the table in step exactly when a returning address gets its rule. -/
theorem learn_inStep (hi : s.Inv) (hp : s.InStep q) (hv : s.hist.list.vdevs v=some p) :
    (s.learn q p d ok).InStep q ↔ flowIndex (s.linked p d).vmId ∧ ((s.linked p d).ip∈s.gone →
      (s.hist.flow.ethRxFlows (s.linked p d).vmId=none ∧ ok=true) ∨
        HasRule q s.hist.flow p (s.linked p d)) := by
  have hstray : (s.learn q p d ok).stray=!decide (flowIndex (s.linked p d).vmId) := by
    rw [learn,hp.bounds,Bool.false_or]
  have hflow : (s.learn q p d ok).hist.flow=(s.hist.flow.install q p (s.linked p d) ok).2 := rfl
  have hdev : (s.learn q p d ok).hist.devs p=s.linked p d := Function.update_self ..
  have hback : (s.learn q p d ok).back p=decide ((s.linked p d).ip∈s.gone) :=
    Function.update_self ..
  constructor
  · intro h
    constructor
    · have hb := h.bounds
      rw [hstray] at hb
      simpa using hb
    · intro hg
      have hr := h.renewed v p hv (by rw [hback]; exact decide_eq_true hg)
      rw [hflow,hdev] at hr
      exact (hasRule_install hi.table _).mp hr
  · rintro ⟨hidx,hr⟩
    refine ⟨coherent_of_exact (FlowTable.install_exact hi.table q p _ ok),hp.once,
      fun u w hu hb => ?_,by simpa [hstray] using hidx⟩
    by_cases hw : w=p
    · subst hw
      rw [hback] at hb
      rw [hflow,hdev]
      exact (hasRule_install hi.table _).mpr (hr (of_decide_eq_true hb))
    · have hb' : s.back w=true := (Function.update_of_ne hw ..).symm.trans hb
      have hd : (s.learn q p d ok).hist.devs w=s.hist.devs w := Function.update_of_ne hw ..
      rw [hflow,hd]
      exact (hp.renewed u w hu hb').install hi.table

theorem learn_inv (hi : s.Inv) (hv : s.hist.list.vdevs v=some p)
    (hw : (s.learn q p d ok).hist.Wf) : (s.learn q p d ok).Inv := by
  refine ⟨hw,FlowTable.install_exact hi.table q p _ ok,fun w hb => ?_,hi.kept⟩
  by_cases he : w=p
  · subst he
    exact (hi.wf v w hv).2
  · exact hi.back w ((Function.update_of_ne he ..).symm.trans hb)

theorem newDevice_inStep (hi : s.Inv) (hp : s.InStep q) (v : Vid) :
    ({s with hist:=s.hist.newDevice v} : FlowHist).InStep q ∧
      (∀ w,s.back w=true → w < (s.hist.newDevice v).nextDev) ∧
      (s.hist.newDevice v).flow=s.hist.flow := by
  unfold Hist.newDevice
  split
  · exact ⟨⟨hp.coherent,hp.once,hp.renewed,hp.bounds⟩,hi.back,rfl⟩
  · refine ⟨⟨hp.coherent,hp.once,fun u w hu hb => ?_,hp.bounds⟩,
      fun w hb => Nat.lt_succ_of_lt (hi.back w hb),rfl⟩
    have hne : w≠s.hist.nextDev := (hi.back w hb).ne
    have hu' : s.hist.list.vdevs u=some w := by
      by_cases he : u=v
      · subst he
        exact absurd (by simpa [VdevList.insert] using hu : s.hist.nextDev=w).symm hne
      · simpa [VdevList.insert,he] using hu
    have hr := hp.renewed u w hu' hb
    simpa [Function.update_of_ne hne] using hr

end

/-- One operation on a table in step leaves it so exactly when it is FlowOk. -/
theorem step_inStep {q : Nat} {s t : FlowHist} {a : Op} (hi : s.Inv) (hp : s.InStep q)
    (ht : s.step q a=some t) : t.InStep q ↔ FlowOk q s a := by
  rcases step_cases ht with ⟨v,rfl,-,rfl⟩ | ⟨v,ok,p,rfl,hv,rfl⟩ | ⟨v,d,ok,p,r,rfl,hq,hv,rfl⟩ |
    ⟨r,rfl,hok⟩
  · exact ⟨fun _ => trivial,fun _ => (newDevice_inStep hi hp v).1⟩
  · rw [destroy_inStep hi hp hv]
    simp only [FlowOk,hv]
  · have hi' : ({s with hist:={s.hist with queue:=r}} : FlowHist).Inv :=
      ⟨hi.wf,hi.table,hi.back,hi.kept⟩
    have hp' : ({s with hist:={s.hist with queue:=r}} : FlowHist).InStep q :=
      ⟨hp.coherent,hp.once,hp.renewed,hp.bounds⟩
    rw [learn_inStep hi' hp' hv]
    simp only [FlowOk,hq,hv]
    rfl
  · exact ⟨fun _ => hok,fun _ => ⟨hp.coherent,hp.once,hp.renewed,hp.bounds⟩⟩

theorem step_inv {q : Nat} {s t : FlowHist} {a : Op} (hi : s.Inv) (hp : s.InStep q)
    (hok : FlowOk q s a) (ht : s.step q a=some t) : t.Inv := by
  have hw := step_wf hi.wf ht
  rcases step_cases ht with ⟨v,rfl,-,rfl⟩ | ⟨v,ok,p,rfl,hv,rfl⟩ | ⟨v,d,ok,p,r,rfl,hq,hv,rfl⟩ |
    ⟨r,rfl,-⟩
  · obtain ⟨-,hback,hflow⟩ := newDevice_inStep hi hp v
    refine ⟨hw,?_,hback,hi.kept⟩
    change (s.hist.newDevice v).flow.Exact
    rw [hflow]
    exact hi.table
  · simp only [FlowOk,hv] at hok
    exact destroy_inv hi hok.2 hw
  · exact learn_inv (s:={s with hist:={s.hist with queue:=r}})
      ⟨hi.wf,hi.table,hi.back,hi.kept⟩ hv hw
  · exact ⟨hw,hi.table,hi.back,hi.kept⟩

theorem init_inv : init.Inv :=
  ⟨Hist.init_wf,FlowTable.empty_exact,fun _ h => by simp [init] at h,rfl⟩

theorem init_inStep (q : Nat) : init.InStep q :=
  ⟨coherent_of_exact FlowTable.empty_exact,List.nodup_nil,fun _ _ _ h => by simp [init] at h,rfl⟩

/-- A history keeps `eth_rx_flows` and the NIC in step iff none of its destructions removes
a rule and each device that learns the address of a destroyed one gets its rule. -/
theorem flows_in_step_iff (ethRxQueues : Nat) (ops : List Op) :
    Visits (step ethRxQueues) (InStep ethRxQueues) init ops ↔
      Meets (step ethRxQueues) (FlowOk ethRxQueues) init ops :=
  visits_iff_meets (I:=Inv) step_inv step_inStep init ops init_inv (init_inStep ethRxQueues)

/-- Device 0 learns 192.168.100.5, is destroyed, comes back with the address. -/
def comeBack : List Op :=
  [.newDevice 0,.issue 0 (ipv4Frame 5 1),.learn true,.destroyDevice 0 true,.newDevice 0,
    .issue 0 (ipv4Frame 5 1),.learn true]

/-- Slot 3 still has the destroyed handle, so the device that came back gets no rule, and
its destruction destroys the handle once more. -/
theorem stale_handle_destroyed_twice :
    ∃ s t,run (step 1) init comeBack=some s ∧ step 1 s (.destroyDevice 0 true)=some t ∧
      s.hist.flow.ethRxFlows 3=some 0 ∧ (∀ h,s.hist.flow.rules h=none) ∧ ¬s.Coherent ∧
      ¬s.Renewed 1 ∧ t.destroyed=[0,0] := by
  have hrun : (run (step 1) init comeBack).map
      (fun s => (s.hist.flow.ethRxFlows 3,s.back 1,s.hist.list.vdevs 0))=
      some (some 0,true,some 1) := by decide +kernel
  have hnone (h : Nat) : (run (step 1) init comeBack).map (fun s => s.hist.flow.rules h)=
      some none := by
    cases h <;> rfl
  have hdst : (run (step 1) init comeBack).bind
      (fun s => (step 1 s (.destroyDevice 0 true)).map destroyed)=some [0,0] := by decide +kernel
  obtain ⟨s,hs,hf⟩ := Option.map_eq_some_iff.mp hrun
  obtain ⟨hslot,hf⟩ := Prod.mk.inj hf
  obtain ⟨hback,hlive⟩ := Prod.mk.inj hf
  have hrules (h : Nat) : s.hist.flow.rules h=none := by
    have hh := hnone h
    rw [hs] at hh
    exact Option.some.inj hh
  rw [hs] at hdst
  obtain ⟨t,ht,hd⟩ := Option.map_eq_some_iff.mp hdst
  refine ⟨s,t,hs,ht,hslot,hrules,fun hc => ?_,fun hr => ?_,hd⟩
  · obtain ⟨h,r,hh,-⟩ := (hc 3 (by decide)).mp (by rw [hslot]; rfl)
    simp [hrules h] at hh
  · obtain ⟨h,r,hh,-⟩ := hr 0 1 hlive hback
    simp [hrules h] at hh

end FlowHist

end Umanet
