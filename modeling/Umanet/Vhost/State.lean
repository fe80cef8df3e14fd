import Mathlib.Algebra.GroupWithZero.Nat
import Mathlib.Data.Fin.Basic
import Mathlib.Data.Fintype.Card
import Mathlib.Data.List.FinRange

namespace Umanet

/-- `MAX_VHOSTS`; it bounds `vdevs`, the plans' `vids` and the core maps. -/
abbrev maxVhosts : Nat := 64

/-- `MAX_PKT_BURST` -/
abbrev maxPktBurst : Nat := 64

/-- Index of a vhost device. Every table of the program indexed by vid has
`MAX_VHOSTS` slots, so the index type is the tables' own. -/
abbrev Vid := Fin maxVhosts

instance : NeZero maxVhosts := ⟨by decide⟩
instance : LawfulBEq Vid := inferInstance

abbrev Byte := BitVec 8
abbrev Mac := Fin 6 → Byte
abbrev Ip := BitVec 32

/-- `MAX_ETH_TX_QUEUES`, the length of eth_pkts, eth_cnt and ecn_rr_eth -/
def maxEthTxQueues : Nat := 20

/-- Fields of `config_t` the modelled code reads. A process that gets past
init_dataplane_topology and init_dataplane_ctxs has at least one core of each
kind and at most `MAX_ETH_TX_QUEUES` egress queues. -/
structure Config where
  vhostRxCores : Nat
  vhostTxCores : Nat
  ethRxCores : Nat
  ethRxQueues : Nat
  ethTxQueues : Nat
  ip : Ip
  mac : Mac
  rxCores_pos : 0 < vhostRxCores
  txCores_pos : 0 < vhostTxCores
  queues_pos : 0 < ethTxQueues
  queues_le : ethTxQueues ≤ maxEthTxQueues

/-- The configuration of concrete runs: one core of each kind but two vhost_tx cores. -/
def smallConfig : Config where
  vhostRxCores:=1
  vhostTxCores:=2
  ethRxCores:=1
  ethRxQueues:=1
  ethTxQueues:=1
  ip:=0xC0A86401
  mac:=fun _ => 2
  rxCores_pos:=by decide
  txCores_pos:=by decide
  queues_pos:=by decide
  queues_le:=by decide

instance : NeZero smallConfig.vhostRxCores := ⟨by decide⟩
instance : NeZero smallConfig.vhostTxCores := ⟨by decide⟩

/-- `DEVICE_MAC_LEARNING`, `DEVICE_RX`, `DEVICE_SAFE_REMOVE` -/
inductive Ready
  | macLearning
  | rx
  | safeRemove
  deriving DecidableEq

/-- `struct vhost_dev` -/
structure VhostDev where
  vid : Vid
  vmId : Int
  mac : Mac
  ip : Ip
  ready : Ready

/-- What new_device stores in a freshly allocated device. -/
def VhostDev.fresh (vid : Vid) : VhostDev := ⟨vid,-1,fun _ => 0,0,.macLearning⟩

/-- Address of a vhost_dev. destroy_device never frees one. -/
abbrev DevPtr := Nat

/-- `struct vdev_list`. A published list is never written again. -/
structure VdevList where
  num : Nat
  vdevs : Vid → Option DevPtr

def VdevList.empty : VdevList := ⟨0,fun _ => none⟩

/-- The copy that new_device publishes. -/
def VdevList.insert (L : VdevList) (v : Vid) (d : DevPtr) : VdevList :=
  ⟨(L.num+1)%2^16,Function.update L.vdevs v (some d)⟩

/-- The copy that destroy_device publishes. -/
def VdevList.remove (L : VdevList) (v : Vid) : VdevList :=
  ⟨(L.num+(2^16-1))%2^16,Function.update L.vdevs v none⟩

def VdevList.live (L : VdevList) (v : Vid) : Bool := (L.vdevs v).isSome

@[simp] theorem VdevList.live_empty (v : Vid) : VdevList.empty.live v=false := rfl

theorem VdevList.live_insert (L : VdevList) (v u : Vid) (d : DevPtr) :
    (L.insert v d).live u=if u=v then true else L.live u := by
  by_cases h : u=v <;> simp [live,insert,h]

theorem VdevList.live_remove (L : VdevList) (v u : Vid) :
    (L.remove v).live u=if u=v then false else L.live u := by
  by_cases h : u=v <;> simp [live,remove,h]

namespace VdevList

open Finset

/-- `num` is the number of entries that are not NULL. -/
def Counted (L : VdevList) : Prop := L.num=(univ.filter fun v => L.live v=true).card

theorem empty_counted : empty.Counted := by simp [Counted,empty,live]

theorem Counted.le {L : VdevList} (h : L.Counted) : L.num ≤ maxVhosts := by
  rw [h]
  exact (card_filter_le _ _).trans_eq (Fintype.card_fin _)

theorem filter_live_insert (L : VdevList) (v : Vid) (d : DevPtr) :
    (univ.filter fun u => (L.insert v d).live u=true)=
      Insert.insert v (univ.filter fun u => L.live u=true) := by
  ext u
  by_cases h : u=v <;> simp [live_insert,h]

theorem filter_live_remove (L : VdevList) (v : Vid) :
    (univ.filter fun u => (L.remove v).live u=true)=
      (univ.filter fun u => L.live u=true).erase v := by
  ext u
  by_cases h : u=v <;> simp [live_remove,h]

theorem Counted.lt {L : VdevList} (h : L.Counted) {v : Vid} (hv : L.live v=false) :
    L.num < maxVhosts := by
  have hsub : (univ.filter fun u => L.live u=true) ⊂ univ :=
    filter_ssubset.mpr ⟨v,mem_univ v,by simp [hv]⟩
  have hc := card_lt_card hsub
  rw [h]
  simpa using hc

theorem insert_counted {L : VdevList} (h : L.Counted) {v : Vid} (hv : L.live v=false)
    (d : DevPtr) : (L.insert v d).Counted := by
  have hlt := h.lt hv
  have hnum : (L.insert v d).num=L.num+1 := Nat.mod_eq_of_lt (by simp only [maxVhosts] at hlt; omega)
  rw [Counted,hnum,filter_live_insert,card_insert_of_notMem (by simp [hv]),h]

theorem remove_counted {L : VdevList} (h : L.Counted) {v : Vid} (hv : L.live v=true) :
    (L.remove v).Counted := by
  have hle := h.le
  have hmem : v∈univ.filter fun u => L.live u=true := by simp [hv]
  have hpos : 0 < L.num := by
    rw [h]
    exact card_pos.mpr ⟨v,hmem⟩
  have hnum : (L.remove v).num=L.num-1 := by
    simp only [remove,maxVhosts] at hle ⊢
    omega
  rw [Counted,hnum,filter_live_remove,card_erase_of_mem hmem,h]

end VdevList

end Umanet
