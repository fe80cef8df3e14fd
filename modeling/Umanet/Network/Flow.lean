import Mathlib.Algebra.Group.Int.Defs
import Umanet.Vhost.Route

namespace Umanet

/-- A NIC rule: destination MAC to RX queue. `vmId` and `owner` record the device
it was created for; the NIC does not store them. -/
structure FlowRule where
  mac : Mac
  queue : Nat
  vmId : Int
  owner : DevPtr

/-- `eth_rx_flows`, indexed by vm_id without a bounds check, and the rules alive in
the NIC. Handles are never issued twice. -/
structure FlowTable where
  ethRxFlows : Int → Option Nat
  rules : Nat → Option FlowRule
  nextHandle : Nat

namespace FlowTable

def empty : FlowTable := ⟨fun _ => none,fun _ => none,0⟩

/-- `vm_id % config.eth_rx_queues` stored in a uint16. -/
def queueOf (vmId : Int) (ethRxQueues : Nat) : Nat := (vmId.tmod ethRxQueues%2^16).toNat

/-- install_eth_rx_flow; `ok` is whether rte_flow_create returns a rule. -/
def install (t : FlowTable) (ethRxQueues : Nat) (p : DevPtr) (dev : VhostDev) (ok : Bool) :
    Int × FlowTable :=
  if (t.ethRxFlows dev.vmId).isSome then (-1,t)
  else if ok then
    (0,⟨Function.update t.ethRxFlows dev.vmId (some t.nextHandle),
      Function.update t.rules t.nextHandle
        (some ⟨dev.mac,queueOf dev.vmId ethRxQueues,dev.vmId,p⟩),t.nextHandle+1⟩)
  else (-1,t)

/-- uninstall_eth_rx_flow; `ok` is whether rte_flow_destroy succeeds. The slot of
`eth_rx_flows` keeps the handle. -/
def uninstall (t : FlowTable) (dev : VhostDev) (ok : Bool) : Int × FlowTable :=
  match t.ethRxFlows dev.vmId with
  | none => (-1,t)
  | some h => if ok then (0,{t with rules:=Function.update t.rules h none}) else (-1,t)

/-- Every rule made for device p can be found through slot k. -/
def OwnedAt (t : FlowTable) (p : DevPtr) (k : Int) : Prop :=
  ∀ h r,t.rules h=some r → r.owner=p → t.ethRxFlows k=some h

def NoRule (t : FlowTable) (p : DevPtr) : Prop := ∀ h r,t.rules h=some r → r.owner≠p

theorem install_rules (t : FlowTable) (n : Nat) {p q : DevPtr} (dev : VhostDev) (ok : Bool)
    (hq : q≠p) {h : Nat} {r : FlowRule} (hr : (t.install n q dev ok).2.rules h=some r)
    (ho : r.owner=p) : t.rules h=some r := by
  unfold install at hr
  split at hr
  · exact hr
  · split at hr
    · by_cases hh : h=t.nextHandle
      · simp only [hh,Function.update_self,Option.some.injEq] at hr
        exact absurd ((congrArg FlowRule.owner hr).trans ho) hq
      · simpa [Function.update_of_ne hh] using hr
    · exact hr

theorem install_noRule {t : FlowTable} {n : Nat} {p q : DevPtr} {dev : VhostDev} {ok : Bool}
    (hq : q≠p) (h : t.NoRule p) : (t.install n q dev ok).2.NoRule p :=
  fun k r hr ho => h k r (t.install_rules n dev ok hq hr ho) ho

theorem install_ownedAt {t : FlowTable} {n : Nat} {p q : DevPtr} {dev : VhostDev} {ok : Bool}
    {k : Int} (hq : q≠p) (h : t.OwnedAt p k) : (t.install n q dev ok).2.OwnedAt p k := by
  intro i r hr ho
  have hs := h i r (t.install_rules n dev ok hq hr ho) ho
  -- a used slot is not written
  unfold install
  split
  · exact hs
  · rename_i hfree
    split
    · have hne : k≠dev.vmId := fun e => hfree (by simp [← e,hs])
      simpa [Function.update_of_ne hne] using hs
    · exact hs

theorem uninstall_noRule {t : FlowTable} {p : DevPtr} {dev : VhostDev}
    (h : t.OwnedAt p dev.vmId) : (t.uninstall dev true).2.NoRule p := by
  intro i r hr ho
  unfold uninstall at hr
  split at hr
  · rename_i hnone
    have hs := h i r hr ho
    simp [hnone] at hs
  · rename_i k hk
    by_cases hi : i=k
    · simp [hi] at hr
    · have hold : t.rules i=some r := by simpa [Function.update_of_ne hi] using hr
      exact hi (Option.some.inj ((h i r hold ho).symm.trans hk))

/-- Slots and live rules name each other, and handles are below the next one. -/
structure Exact (t : FlowTable) : Prop where
  slot : ∀ k h,t.ethRxFlows k=some h → ∃ r,t.rules h=some r ∧ r.vmId=k
  rule : ∀ h r,t.rules h=some r → t.ethRxFlows r.vmId=some h
  fresh : ∀ h r,t.rules h=some r → h < t.nextHandle

theorem empty_exact : empty.Exact :=
  ⟨fun _ _ h => by simp [empty] at h,fun _ _ h => by simp [empty] at h,
    fun _ _ h => by simp [empty] at h⟩

theorem install_cases (t : FlowTable) (n : Nat) (p : DevPtr) (dev : VhostDev) (ok : Bool) :
    ((t.ethRxFlows dev.vmId).isSome=true ∧ (t.install n p dev ok).2=t) ∨
    (t.ethRxFlows dev.vmId=none ∧ ok=false ∧ (t.install n p dev ok).2=t) ∨
    (t.ethRxFlows dev.vmId=none ∧ ok=true ∧ (t.install n p dev ok).2=
      ⟨Function.update t.ethRxFlows dev.vmId (some t.nextHandle),
        Function.update t.rules t.nextHandle
          (some ⟨dev.mac,queueOf dev.vmId n,dev.vmId,p⟩),t.nextHandle+1⟩) := by
  unfold install
  cases hs : t.ethRxFlows dev.vmId with
  | some h => exact Or.inl ⟨rfl,by simp⟩
  | none =>
    cases ok with
    | false => exact Or.inr (Or.inl ⟨rfl,rfl,by simp⟩)
    | true => exact Or.inr (Or.inr ⟨rfl,rfl,by simp⟩)

theorem install_exact {t : FlowTable} (h : t.Exact) (n : Nat) (p : DevPtr) (dev : VhostDev)
    (ok : Bool) : (t.install n p dev ok).2.Exact := by
  rcases install_cases t n p dev ok with ⟨-,he⟩ | ⟨-,-,he⟩ | ⟨hnone,-,he⟩
  · rw [he]
    exact h
  · rw [he]
    exact h
  · rw [he]
    have hother : ∀ i r,i≠t.nextHandle → t.rules i=some r → r.vmId≠dev.vmId := by
      intro i r _ hr e
      have hs := h.rule i r hr
      rw [e,hnone] at hs
      simp at hs
    refine ⟨fun k i hk => ?_,fun i r hr => ?_,fun i r hr => ?_⟩
    · by_cases hkd : k=dev.vmId
      · subst hkd
        have hi : t.nextHandle=i := by simpa using hk
        subst hi
        exact ⟨_,Function.update_self ..,rfl⟩
      · have hk' : t.ethRxFlows k=some i := by simpa [Function.update_of_ne hkd] using hk
        obtain ⟨r,hr,hv⟩ := h.slot k i hk'
        have hi : i≠t.nextHandle := (h.fresh i r hr).ne
        exact ⟨r,by simpa [Function.update_of_ne hi] using hr,hv⟩
    · by_cases hi : i=t.nextHandle
      · subst hi
        change Function.update t.rules t.nextHandle _ t.nextHandle=some r at hr
        rw [Function.update_self] at hr
        have hr' := Option.some.inj hr
        subst hr'
        exact Function.update_self ..
      · have hr' : t.rules i=some r := by simpa [Function.update_of_ne hi] using hr
        exact (Function.update_of_ne (hother i r hi hr') ..).trans (h.rule i r hr')
    · by_cases hi : i=t.nextHandle
      · subst hi
        exact Nat.lt_succ_self _
      · have hr' : t.rules i=some r := by simpa [Function.update_of_ne hi] using hr
        exact Nat.lt_succ_of_lt (h.fresh i r hr')

theorem install_keeps {t : FlowTable} (h : t.Exact) (n : Nat) (p : DevPtr) (dev : VhostDev)
    (ok : Bool) {i : Nat} {r : FlowRule} (hr : t.rules i=some r) :
    (t.install n p dev ok).2.rules i=some r := by
  rcases install_cases t n p dev ok with ⟨-,he⟩ | ⟨-,-,he⟩ | ⟨-,-,he⟩
  · rw [he]
    exact hr
  · rw [he]
    exact hr
  · rw [he]
    exact (Function.update_of_ne (h.fresh i r hr).ne ..).trans hr

/-- Without a handle, or when rte_flow_destroy fails, nothing happens. -/
theorem uninstall_idle (t : FlowTable) (dev : VhostDev) {ok : Bool}
    (h : t.ethRxFlows dev.vmId=none ∨ ok=false) : (t.uninstall dev ok).2=t := by
  unfold uninstall
  rcases h with h | h
  · rw [h]
  · subst h
    split <;> rfl

/-- A successful rte_flow_destroy takes the rule and leaves the handle in its slot. -/
theorem uninstall_stale {t : FlowTable} (h : t.Exact) {dev : VhostDev} {i : Nat}
    (hs : t.ethRxFlows dev.vmId=some i) :
    (t.uninstall dev true).2.ethRxFlows dev.vmId=some i ∧
      ∀ j r,(t.uninstall dev true).2.rules j=some r → r.vmId≠dev.vmId := by
  unfold uninstall
  rw [hs]
  refine ⟨hs,fun j r hr e => ?_⟩
  by_cases hj : j=i
  · subst hj
    simp at hr
  · have hr' : t.rules j=some r := by simpa [Function.update_of_ne hj] using hr
    have hslot := h.rule j r hr'
    rw [e,hs] at hslot
    exact hj (Option.some.inj hslot).symm

end FlowTable

end Umanet
