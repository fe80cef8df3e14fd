import Umanet.Network.FlowHistory

namespace Umanet

open Framework

/-- What a flow call computes from vm_id: the index of `eth_rx_flows`, and the queue if it
gets that far. -/
structure FlowUse where
  index : Int
  queue : Option Nat
  deriving DecidableEq

/-- The index is one of the array, the queue one of the NIC. -/
def FlowUse.Safe (ethRxQueues : Nat) (u : FlowUse) : Prop :=
  flowIndex u.index ∧ ∀ k∈u.queue,k < ethRxQueues

namespace FlowTable

/-- install_eth_rx_flow returns before the queue when the slot is in use. -/
def installUse (t : FlowTable) (ethRxQueues : Nat) (dev : VhostDev) : FlowUse :=
  ⟨dev.vmId,if (t.ethRxFlows dev.vmId).isSome then none else some (queueOf dev.vmId ethRxQueues)⟩

/-- uninstall_eth_rx_flow returns before the queue when the slot is free. -/
def uninstallUse (t : FlowTable) (ethRxQueues : Nat) (dev : VhostDev) : FlowUse :=
  ⟨dev.vmId,(t.ethRxFlows dev.vmId).map fun _ => queueOf dev.vmId ethRxQueues⟩

end FlowTable

/-- An index of the array that is not negative stays one under `%`. -/
theorem queueOf_lt {vmId : Int} {n : Nat} (h : flowIndex vmId) (hn : 0 < n) :
    FlowTable.queueOf vmId n < n := by
  obtain ⟨k,rfl⟩ := Int.eq_ofNat_of_zero_le h.1
  have hk : k < maxVhosts := by exact_mod_cast h.2
  have hlt : k%n < n := Nat.mod_lt k hn
  have hle : k%n ≤ k := Nat.mod_le k n
  have hsmall : k%n < 2^16 := by
    simp only [maxVhosts] at hk
    omega
  have hq : FlowTable.queueOf k n=k%n := by
    rw [FlowTable.queueOf,← Int.ofNat_tmod]
    omega
  rw [hq]
  exact hlt

theorem FlowUse.safe_iff {n : Nat} {u : FlowUse} (hn : 0 < n)
    (hu : ∀ k∈u.queue,k=FlowTable.queueOf u.index n) : u.Safe n ↔ flowIndex u.index := by
  constructor
  · exact fun h => h.1
  · intro h
    refine ⟨h,fun k hk => ?_⟩
    rw [hu k hk]
    exact queueOf_lt h hn

theorem linkVmdq_vmId (dev : VhostDev) (r : Route) (d : Data) :
    (linkVmdq dev r d).1.vmId=((learnedIp d).map vmIdOf).getD dev.vmId := by
  unfold linkVmdq VhostDev.setReady VhostDev.learnVmId VhostDev.learnIp VhostDev.learnMac
  cases learnedIp d <;> rfl

theorem flowIndex_vmIdOf (ip : Ip) :
    flowIndex (vmIdOf ip) ↔ 2 ≤ (octet ip).toNat ∧ (octet ip).toNat ≤ 65 := by
  unfold flowIndex vmIdOf
  simp only [maxVhosts]
  omega

namespace Hist

/-- The flow calls of one operation: a learning message installs, a destruction uninstalls,
each if it finds its device. -/
def flowUses (ethRxQueues : Nat) (s : Hist) : Op → List FlowUse
  | .destroyDevice v _ =>
    match s.list.vdevs v with
    | none => []
    | some p => [s.flow.uninstallUse ethRxQueues (unlinkVmdq (s.devs p) s.route).1]
  | .learn _ =>
    match s.queue with
    | [] => []
    | (v,d)::_ =>
      match s.list.vdevs v with
      | none => []
      | some p => [s.flow.installUse ethRxQueues (linkVmdq (s.devs p) s.route d).1]
  | .newDevice _ | .issue _ _ => []

/-- What an operation must find: the NIC has a queue, the source address of a learning frame
ends in 2 to 65, and a device that is destroyed, or that learns from a frame without an
address, has learned before. -/
def IndexOk (ethRxQueues : Nat) (s : Hist) : Op → Prop
  | .destroyDevice v _ =>
    match s.list.vdevs v with
    | none => True
    | some p => (s.devs p).ready=.rx
  | .learn _ =>
    match s.queue with
    | [] => True
    | (v,d)::_ =>
      match s.list.vdevs v with
      | none => True
      | some p => 0 < ethRxQueues ∧
        match learnedIp d with
        | some ip => 2 ≤ (octet ip).toNat ∧ (octet ip).toNat ≤ 65
        | none => (s.devs p).ready=.rx
  | .newDevice _ | .issue _ _ => True

/-- A live device is either learning, and then its vm_id is -1, or has an index of the array.
Without a queue no device has learned and no slot is used. -/
structure IndexInv (ethRxQueues : Nat) (s : Hist) : Prop where
  wf : s.Wf
  dev : ∀ v p,s.list.vdevs v=some p → (s.devs p).ready=.macLearning ∧ (s.devs p).vmId=-1 ∨
    (s.devs p).ready=.rx ∧ flowIndex (s.devs p).vmId
  queues : 0 < ethRxQueues ∨ (∀ v p,s.list.vdevs v=some p → (s.devs p).ready=.macLearning) ∧
    ∀ k,s.flow.ethRxFlows k=none

section
variable {q : Nat} {s t : Hist} {v : Vid} {p : DevPtr}

theorem IndexInv.learned_iff (h : s.IndexInv q) (hv : s.list.vdevs v=some p) :
    flowIndex (s.devs p).vmId ↔ (s.devs p).ready=.rx := by
  rcases h.dev v p hv with ⟨hr,hm⟩ | ⟨hr,hm⟩
  · rw [hr,hm]
    simp [flowIndex]
  · rw [hr]
    exact ⟨fun _ => rfl,fun _ => hm⟩

theorem uninstall_safe_iff (h : s.IndexInv q) (hv : s.list.vdevs v=some p) :
    (s.flow.uninstallUse q (unlinkVmdq (s.devs p) s.route).1).Safe q ↔ (s.devs p).ready=.rx := by
  rw [← h.learned_iff hv]
  unfold FlowTable.uninstallUse
  rw [unlinkVmdq_vmId]
  rcases h.queues with hq | ⟨-,hfree⟩
  · apply FlowUse.safe_iff hq
    intro k hk
    obtain ⟨_,-,he⟩ := Option.map_eq_some_iff.mp hk
    exact he.symm
  · simp [FlowUse.Safe,hfree]

theorem install_safe_iff (h : s.IndexInv q) (hv : s.list.vdevs v=some p) (d : Data) :
    (s.flow.installUse q (linkVmdq (s.devs p) s.route d).1).Safe q ↔ 0 < q ∧
      match learnedIp d with
      | some ip => 2 ≤ (octet ip).toNat ∧ (octet ip).toNat ≤ 65
      | none => (s.devs p).ready=.rx := by
  have hidx : flowIndex (linkVmdq (s.devs p) s.route d).1.vmId ↔
      match learnedIp d with
      | some ip => 2 ≤ (octet ip).toNat ∧ (octet ip).toNat ≤ 65
      | none => (s.devs p).ready=.rx := by
    rw [linkVmdq_vmId]
    cases learnedIp d with
    | none => exact h.learned_iff hv
    | some ip => exact flowIndex_vmIdOf ip
  rw [← hidx]
  unfold FlowTable.installUse
  rcases h.queues with hq | ⟨-,hfree⟩
  · simp only [hq,true_and]
    apply FlowUse.safe_iff hq
    intro k hk
    dsimp only at hk
    split at hk
    · cases hk
    · exact (Option.some.inj hk).symm
  · simp only [FlowUse.Safe,hfree,Option.isSome_none,Bool.false_eq_true,if_false,Option.mem_def,
      Option.some.injEq,forall_eq']
    constructor
    · rintro ⟨hi,hk⟩
      exact ⟨Nat.zero_lt_of_lt hk,hi⟩
    · rintro ⟨hq,hi⟩
      exact ⟨hi,queueOf_lt hi hq⟩

/-- The flow calls of an operation are safe exactly when it finds what it needs. -/
theorem flowUses_safe_iff (h : s.IndexInv q) (a : Op) :
    (∀ u∈s.flowUses q a,u.Safe q) ↔ s.IndexOk q a := by
  cases a with
  | newDevice v => simp [flowUses,IndexOk]
  | issue v d => simp [flowUses,IndexOk]
  | destroyDevice v ok =>
    simp only [flowUses,IndexOk]
    cases hv : s.list.vdevs v with
    | none => simp
    | some p => simp [uninstall_safe_iff h hv]
  | learn ok =>
    simp only [flowUses,IndexOk]
    cases s.queue with
    | nil => simp
    | cons m r =>
      obtain ⟨v,d⟩ := m
      dsimp only
      cases hv : s.list.vdevs v with
      | none => simp
      | some p => simp [install_safe_iff h hv d]

theorem newDevice_indexInv (h : s.IndexInv q) (hv : s.list.vdevs v=none) :
    (s.newDevice v).IndexInv q := by
  have hw := newDevice_wf h.wf v
  unfold newDevice at hw ⊢
  split at hw
  · next hfull => rw [if_pos hfull]; exact h
  · next hfull =>
    rw [if_neg hfull]
    have hold : ∀ u w,(s.list.insert v s.nextDev).vdevs u=some w →
        u=v ∧ w=s.nextDev ∨ s.list.vdevs u=some w ∧ w≠s.nextDev := by
      intro u w hu
      by_cases he : u=v
      · subst he
        exact Or.inl ⟨rfl,(Option.some.inj (by simpa [VdevList.insert] using hu)).symm⟩
      · have hu' : s.list.vdevs u=some w := by simpa [VdevList.insert,he] using hu
        exact Or.inr ⟨hu',(h.wf u w hu').2.ne⟩
    refine ⟨hw,fun u w hu => ?_,?_⟩
    · rcases hold u w hu with ⟨rfl,rfl⟩ | ⟨hu',hne⟩
      · simp [VhostDev.fresh]
      · simpa [Function.update_of_ne hne] using h.dev u w hu'
    · refine h.queues.imp_right fun hq => ⟨fun u w hu => ?_,hq.2⟩
      rcases hold u w hu with ⟨rfl,rfl⟩ | ⟨hu',hne⟩
      · simp [VhostDev.fresh]
      · simpa [Function.update_of_ne hne] using hq.1 u w hu'

theorem destroyFound_indexInv (h : s.IndexInv q) (hv : s.list.vdevs v=some p)
    (hr : (s.devs p).ready=.rx) (ok : Bool) (hw : (s.destroyFound v p ok).Wf) :
    (s.destroyFound v p ok).IndexInv q := by
  have hq : 0 < q := by
    rcases h.queues with hq | ⟨hm,-⟩
    · exact hq
    · rw [hm v p hv] at hr
      cases hr
  refine ⟨hw,fun u w hu => ?_,Or.inl hq⟩
  obtain ⟨hne,hu'⟩ := remove_vdevs hu
  have hwp : w≠p := fun e => hne (h.wf.inj hu' (e ▸ hv))
  unfold destroyFound
  simpa [Function.update_of_ne hwp] using h.dev u w hu'

theorem learnFound_indexInv (h : s.IndexInv q) (hq : 0 < q) (d : Data) (ok : Bool)
    (hi : flowIndex (linkVmdq (s.devs p) s.route d).1.vmId)
    (hw : (s.learnFound q p d ok).Wf) : (s.learnFound q p d ok).IndexInv q := by
  refine ⟨hw,fun u w hu => ?_,Or.inl hq⟩
  unfold learnFound
  by_cases hwp : w=p
  · subst hwp
    simp only [Function.update_self]
    exact Or.inr ⟨(linkVmdq_dev (s.devs w) s.route d).2.2,hi⟩
  · simpa [Function.update_of_ne hwp] using h.dev u w hu

theorem step_indexInv {a : Op} (h : s.IndexInv q) (hok : s.IndexOk q a)
    (ht : s.step q a=some t) : t.IndexInv q := by
  have hw := step_wf h.wf ht
  rcases step_cases ht with ⟨v,rfl,hv,rfl⟩ | ⟨v,ok,p,rfl,hv,rfl⟩ | ⟨v,d,ok,p,r,rfl,hq,hv,rfl⟩ |
    ⟨⟨r,rfl⟩,-⟩
  · exact newDevice_indexInv h hv
  · simp only [IndexOk,hv] at hok
    exact destroyFound_indexInv h hv hok ok hw
  · simp only [IndexOk,hq,hv] at hok
    have hsafe := (install_safe_iff h hv d).mpr hok
    exact learnFound_indexInv (s:={s with queue:=r}) ⟨h.wf,h.dev,h.queues⟩ hok.1 d ok hsafe.1 hw
  · exact ⟨h.wf,h.dev,h.queues⟩

theorem init_indexInv (q : Nat) : init.IndexInv q :=
  ⟨init_wf,fun v p hv => by simp [init,VdevList.empty] at hv,
    Or.inr ⟨fun v p hv => by simp [init,VdevList.empty] at hv,fun _ => rfl⟩⟩

end

end Hist

/-- A history with a record of what its flow calls computed. -/
structure UseHist where
  hist : Hist
  uses : List FlowUse

namespace UseHist

def init : UseHist := ⟨.init,[]⟩

/-- `Hist.step` with the record. -/
def step (ethRxQueues : Nat) (s : UseHist) (a : Op) : Option UseHist :=
  (s.hist.step ethRxQueues a).map fun h => ⟨h,s.uses++s.hist.flowUses ethRxQueues a⟩

/-- Every flow call so far used an index of the array and a queue of the NIC. -/
def AllSafe (ethRxQueues : Nat) (s : UseHist) : Prop := ∀ u∈s.uses,u.Safe ethRxQueues

theorem step_allSafe {q : Nat} {s t : UseHist} {a : Op} (h : s.hist.IndexInv q) (hs : s.AllSafe q)
    (ht : s.step q a=some t) : t.AllSafe q ↔ s.hist.IndexOk q a := by
  obtain ⟨h',-,rfl⟩ := Option.map_eq_some_iff.mp ht
  rw [← Hist.flowUses_safe_iff h a]
  unfold AllSafe
  simp only [List.forall_mem_append]
  exact and_iff_right hs

theorem step_indexInv {q : Nat} {s t : UseHist} {a : Op} (h : s.hist.IndexInv q)
    (hok : s.hist.IndexOk q a) (ht : s.step q a=some t) : t.hist.IndexInv q := by
  obtain ⟨h',hh,rfl⟩ := Option.map_eq_some_iff.mp ht
  exact Hist.step_indexInv h hok hh

/-- In every history of creations, learning frames of any kind and destructions, all flow
calls stay inside `eth_rx_flows` and the NIC's queues iff the NIC has a queue when a device
learns, every learning frame with a source address has one that ends in 2 to 65, every one
without is for a device that has learned before, and no device is destroyed before it has
learned. -/
theorem flow_index_safe_iff (ethRxQueues : Nat) (ops : List Op) :
    Visits (step ethRxQueues) (AllSafe ethRxQueues) init ops ↔
      Meets (step ethRxQueues) (fun s a => s.hist.IndexOk ethRxQueues a) init ops :=
  visits_iff_meets (I:=fun s => s.hist.IndexInv ethRxQueues)
    (fun h _ hok ht => step_indexInv h hok ht) step_allSafe init ops
    (Hist.init_indexInv ethRxQueues) (fun _ hu => by cases hu)

/-- With four queues: a device that is destroyed before it has learned reads slot -1; one that
learns from 192.168.100.1 uses slot -1 and asks for queue 65535, and one that learns from
192.168.100.200 uses slot 198. -/
theorem flow_index_outside :
    (run (step 4) init [.newDevice 5,.destroyDevice 5 true]).map uses=some [⟨-1,none⟩] ∧
      (run (step 4) init [.newDevice 5,.issue 5 (ipv4Frame 1 9),.learn true]).map uses=
        some [⟨-1,some 65535⟩] ∧
      (run (step 4) init [.newDevice 5,.issue 5 (ipv4Frame 200 9),.learn true]).map uses=
        some [⟨198,some 2⟩] := by
  decide +kernel

end UseHist

end Umanet
