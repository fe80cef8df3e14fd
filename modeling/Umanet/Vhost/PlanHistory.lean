import Mathlib.Algebra.Order.BigOperators.Group.Finset
import Umanet.Framework.Custody
import Umanet.Slow.PlanCalc
import Umanet.Vhost.RouteHistory

namespace Umanet

open Framework

/-- One direction of the plans: `vhost_rx_plans` and `vhost_rx_core`, or the tx ones. -/
structure PlanSide where
  plans : Nat → VhostPlan
  core : Vid → Nat

namespace PlanSide

/-- After init_vhost_plans. -/
def init : PlanSide := ⟨fun _ => .zero,fun _ => 0⟩

/-- The search loop of vhost_*_plan_add: the first of the shortest plans, none if every
plan is full. -/
def shortest (plans : Nat → VhostPlan) (n : Nat) : Option Nat × Nat :=
  (List.range n).foldl
    (fun best i => if (plans i).num < best.2 then (some i,(plans i).num) else best)
    (none,maxVhosts)

/-- vhost_*_plan_add executed without interruption; none is the return value -1. -/
def add (S : PlanSide) (n : Nat) (v : Vid) : Option PlanSide :=
  match (shortest S.plans n).1 with
  | none => none
  | some i =>
    if (S.plans i).num≥maxVhosts then none
    else some ⟨Function.update S.plans i ((S.plans i).append v),Function.update S.core v i⟩

/-- vhost_*_plan_remove executed without interruption; none is the return value -1. -/
def remove (S : PlanSide) (n : Nat) (v : Vid) : Option PlanSide :=
  match (List.range n).find? (fun i => decide (v∈(S.plans i).entries)) with
  | none => none
  | some i =>
    some ⟨Function.update S.plans i ((S.plans i).remove v),Function.update S.core v 0⟩

/-- calculate_vhost_rx_plan or calculate_vhost_tx_plan executed without interruption, with
the statistics of each core. -/
def calculate (S : PlanSide) (dir : Dir) (n : Nat) (L : VdevList)
    (stats : Nat → Vid → VdevRxStats) : PlanSide where
  plans:=fun i =>
    if i < n then calculatePlan L S.core i (scanPlan dir L (stats i) (S.plans i)).isActive
    else S.plans i
  core:=S.core

end PlanSide

/-- The control plane with its plans. -/
structure PlanHist where
  hist : Hist
  side : Dir → PlanSide

inductive PlanOp
  | newDevice (v : Vid)
  | destroyDevice (v : Vid) (ok : Bool)
  | calculate (dir : Dir) (stats : Nat → Vid → VdevRxStats)

namespace PlanHist

def init : PlanHist := ⟨.init,fun _ => .init⟩

/-- new_device; none is the return value -1. -/
def newDevice (cfg : Config) (s : PlanHist) (v : Vid) : Option PlanHist :=
  if s.hist.list.num≥maxVhosts then none
  else
    match (s.side .rx).add (cfg.cores .rx) v,(s.side .tx).add (cfg.cores .tx) v with
    | some rx,some tx => some ⟨s.hist.newDevice v,fun | .rx => rx | .tx => tx⟩
    | _,_ => none

/-- destroy_device once the device has been found. A removal that fails ends it, with the
flow rule still installed. -/
def destroyFound (cfg : Config) (s : PlanHist) (v : Vid) (p : DevPtr) (ok : Bool) : PlanHist :=
  let h := s.hist.destroyFound v p ok
  match (s.side .rx).remove (cfg.cores .rx) v with
  | none => ⟨{h with flow:=s.hist.flow},s.side⟩
  | some rx =>
    match (s.side .tx).remove (cfg.cores .tx) v with
    | none => ⟨{h with flow:=s.hist.flow},fun | .rx => rx | .tx => s.side .tx⟩
    | some tx => ⟨h,fun | .rx => rx | .tx => tx⟩

/-- Successful creations, destructions of live devices, and recalculations. -/
def step (cfg : Config) (s : PlanHist) : PlanOp → Option PlanHist
  | .newDevice v => if s.hist.list.live v then none else s.newDevice cfg v
  | .destroyDevice v ok => (s.hist.list.vdevs v).map fun p => s.destroyFound cfg v p ok
  | .calculate dir stats => some {s with
      side:=Function.update s.side dir
        ((s.side dir).calculate dir (cfg.cores dir) s.hist.list stats)}

end PlanHist

namespace PlanSide

/-- Every live vid is once in the plan of its core and in no other; no other vid is in a
plan. -/
structure Partition (n : Nat) (live : Vid → Bool) (S : PlanSide) : Prop where
  bound : ∀ i < n,(S.plans i).num ≤ maxVhosts
  core : ∀ v,live v=true → S.core v < n
  once : ∀ v,∀ i < n,(S.plans i).entries.count v=if live v=true ∧ S.core v=i then 1 else 0

variable {n : Nat} {live : Vid → Bool} {S T : PlanSide} {v : Vid}

theorem init_partition (n : Nat) : init.Partition n fun _ => false :=
  ⟨fun _ _ => Nat.zero_le _,fun _ h => by simp at h,fun _ _ _ => by simp [init]⟩

/-- A live vid is found in the plan of its core and nowhere else. -/
theorem Partition.mem_iff (h : S.Partition n live) {i : Nat} (hi : i < n) :
    v∈(S.plans i).entries ↔ live v=true ∧ S.core v=i := by
  rw [← List.count_pos_iff,h.once v i hi]
  split
  · simp_all
  · simp_all

theorem shortest_spec (plans : Nat → VhostPlan) (n : Nat) :
    match shortest plans n with
    | (none,m) => m=maxVhosts ∧ ∀ i < n,maxVhosts ≤ (plans i).num
    | (some i,m) => i < n ∧ m=(plans i).num ∧ m < maxVhosts ∧ ∀ j < n,m ≤ (plans j).num := by
  induction n with
  | zero => exact ⟨rfl,fun i hi => absurd hi (Nat.not_lt_zero i)⟩
  | succ n ih =>
    have hstep : shortest plans (n+1)=if (plans n).num < (shortest plans n).2
        then (some n,(plans n).num) else shortest plans n := by
      rw [shortest,List.range_succ,List.foldl_append]
      rfl
    rw [hstep]
    have hle : (shortest plans n).2 ≤ maxVhosts ∧
        ∀ j < n,min (shortest plans n).2 maxVhosts ≤ (plans j).num := by
      rcases hs : shortest plans n with ⟨_ | i,m⟩
      · rw [hs] at ih
        exact ⟨ih.1.le,fun j hj => (Nat.min_le_right _ _).trans (ih.2 j hj)⟩
      · rw [hs] at ih
        exact ⟨ih.2.2.1.le,fun j hj => (Nat.min_le_left _ _).trans (ih.2.2.2 j hj)⟩
    by_cases hlt : (plans n).num < (shortest plans n).2
    · rw [if_pos hlt]
      refine ⟨Nat.lt_succ_self n,rfl,by omega,fun j hj => ?_⟩
      rcases Nat.lt_succ_iff_lt_or_eq.mp hj with hj | rfl
      · have hj' := hle.2 j hj
        omega
      · exact le_rfl
    · rw [if_neg hlt]
      rcases hs : shortest plans n with ⟨_ | i,m⟩
      · rw [hs] at ih hlt
        refine ⟨ih.1,fun j hj => ?_⟩
        rcases Nat.lt_succ_iff_lt_or_eq.mp hj with hj | rfl
        · exact ih.2 j hj
        · have hm := ih.1
          omega
      · rw [hs] at ih hlt
        refine ⟨Nat.lt_succ_of_lt ih.1,ih.2.1,ih.2.2.1,fun j hj => ?_⟩
        rcases Nat.lt_succ_iff_lt_or_eq.mp hj with hj | rfl
        · exact ih.2.2.2 j hj
        · exact Nat.le_of_not_lt hlt

theorem add_spec (h : S.add n v=some T) : ∃ i < n,(S.plans i).num < maxVhosts ∧
    (∀ j < n,(S.plans i).num ≤ (S.plans j).num) ∧
    T=⟨Function.update S.plans i ((S.plans i).append v),Function.update S.core v i⟩ := by
  have hs := shortest_spec S.plans n
  unfold add at h
  rcases hsh : shortest S.plans n with ⟨_ | i,m⟩
  · rw [hsh] at h
    simp at h
  · rw [hsh] at h hs
    obtain ⟨hi,hm,hlt,hmin⟩ := hs
    dsimp only at h
    rw [if_neg (by omega)] at h
    exact ⟨i,hi,by omega,fun j hj => hm ▸ hmin j hj,(Option.some.inj h).symm⟩

theorem add_isSome {i : Nat} (hi : i < n) (h : (S.plans i).num < maxVhosts) :
    (S.add n v).isSome=true := by
  have hs := shortest_spec S.plans n
  unfold add
  rcases hsh : shortest S.plans n with ⟨_ | j,m⟩
  · rw [hsh] at hs
    have hf := hs.2 i hi
    omega
  · rw [hsh] at hs
    dsimp only
    rw [if_neg (by omega)]
    rfl

theorem add_partition (h : S.Partition n live) (hv : live v=false) (ha : S.add n v=some T) :
    T.Partition n (Function.update live v true) := by
  obtain ⟨i,hi,hroom,-,rfl⟩ := add_spec ha
  refine ⟨fun j hj => ?_,fun u hu => ?_,fun u j hj => ?_⟩
  · by_cases hji : j=i
    · subst hji
      simpa using Nat.succ_le_of_lt hroom
    · simpa [hji] using h.bound j hj
  · by_cases huv : u=v
    · subst huv
      simpa using hi
    · have hu' : live u=true := by simpa [huv] using hu
      simpa [huv] using h.core u hu'
  · have hold := h.once u j hj
    by_cases huv : u=v
    · subst huv
      rw [if_neg (by simp [hv])] at hold
      by_cases hji : j=i
      · subst hji
        simp [VhostPlan.append_entries _ _ hroom,hold]
      · simp [hji,hold,Ne.symm hji]
    · have hcount : (Function.update S.plans i ((S.plans i).append v) j).entries.count u=
          (S.plans j).entries.count u := by
        by_cases hji : j=i
        · subst hji
          simp [VhostPlan.append_entries _ _ hroom,Ne.symm huv]
        · simp [hji]
      change (Function.update S.plans i ((S.plans i).append v) j).entries.count u=_
      rw [hcount,hold]
      simp [huv]

theorem remove_eq (h : S.Partition n live) (hv : live v=true) :
    S.remove n v=some ⟨Function.update S.plans (S.core v) ((S.plans (S.core v)).remove v),
      Function.update S.core v 0⟩ := by
  have hc := h.core v hv
  have hfind : (List.range n).find? (fun i => decide (v∈(S.plans i).entries))=some (S.core v) := by
    rcases hf : (List.range n).find? (fun i => decide (v∈(S.plans i).entries)) with _ | i
    · have hnone := List.find?_eq_none.mp hf (S.core v) (List.mem_range.mpr hc)
      have hmem := (h.mem_iff hc).mpr ⟨hv,rfl⟩
      simp [hmem] at hnone
    · have hi : i < n := List.mem_range.mp (List.mem_of_find?_eq_some hf)
      have hm : v∈(S.plans i).entries := by simpa using List.find?_some hf
      rw [((h.mem_iff hi).mp hm).2]
  rw [remove,hfind]

theorem remove_partition (h : S.Partition n live) (hv : live v=true) (hr : S.remove n v=some T) :
    T.Partition n (Function.update live v false) := by
  rw [remove_eq h hv] at hr
  have hr' := Option.some.inj hr
  subst hr'
  have hc := h.core v hv
  have hmem : v∈(S.plans (S.core v)).entries := (h.mem_iff hc).mpr ⟨hv,rfl⟩
  have hb := h.bound _ hc
  have herase := VhostPlan.remove_entries_mem _ v hb hmem
  refine ⟨fun j hj => ?_,fun u hu => ?_,fun u j hj => ?_⟩
  · by_cases hj' : j=S.core v
    · subst hj'
      have h0 : 0 < (S.plans (S.core v)).num := by
        rw [← VhostPlan.entries_length _ hb]
        exact List.length_pos_of_mem hmem
      have hn := VhostPlan.remove_num _ v h0 hb
      simp only [Function.update_self]
      omega
    · simpa [hj'] using h.bound j hj
  · have huv : u≠v := fun e => by simp [e] at hu
    have hu' : live u=true := by simpa [huv] using hu
    simpa [huv] using h.core u hu'
  · have hold := h.once u j hj
    have hcount : (Function.update S.plans (S.core v) ((S.plans (S.core v)).remove v) j).entries.count
        u=if u=v then 0 else (S.plans j).entries.count u := by
      by_cases hj' : j=S.core v
      · subst hj'
        rw [Function.update_self,herase]
        by_cases huv : u=v
        · subst huv
          rw [List.count_erase_self,hold,if_pos ⟨hv,rfl⟩,if_pos rfl]
        · rw [List.count_erase_of_ne huv,if_neg huv]
      · rw [Function.update_of_ne hj']
        by_cases huv : u=v
        · subst huv
          rw [hold,if_neg (fun hh => hj' hh.2.symm),if_pos rfl]
        · rw [if_neg huv]
    change (Function.update S.plans (S.core v) ((S.plans (S.core v)).remove v) j).entries.count u=_
    rw [hcount]
    by_cases huv : u=v
    · simp [huv]
    · simp [huv,hold]

/-- A recalculation puts each live vid back where its affinity is. -/
theorem calculate_partition {L : VdevList} (h : S.Partition n L.live) (dir : Dir)
    (stats : Nat → Vid → VdevRxStats) : (S.calculate dir n L stats).Partition n L.live := by
  have hplan : ∀ i < n,(S.calculate dir n L stats).plans i=
      calculatePlan L S.core i (scanPlan dir L (stats i) (S.plans i)).isActive :=
    fun i hi => if_pos hi
  refine ⟨fun i hi => ?_,h.core,fun v i hi => ?_⟩
  · rw [hplan i hi]
    exact (calculatePlan_entries L S.core i _).2
  · rw [hplan i hi,calculatePlan_count]
    have hact : (scanPlan dir L (stats i) (S.plans i)).isActive v=true →
        L.live v=true ∧ S.core v=i := fun ha =>
      (h.mem_iff hi).mp (scanPlan_active dir L (stats i) (S.plans i) v ha).1
    refine if_congr ⟨fun hc => ?_,fun hc => ?_⟩ rfl rfl
    · rcases hc with hc | hc
      · exact hact hc
      · simp only [probe,Bool.and_eq_true,decide_eq_true_eq] at hc
        exact ⟨hc.1.2,hc.2⟩
    · by_cases ha : (scanPlan dir L (stats i) (S.plans i)).isActive v=true
      · exact Or.inl ha
      · right
        simp only [probe,Bool.and_eq_true,decide_eq_true_eq]
        exact ⟨⟨by simpa using ha,hc.1⟩,hc.2⟩

open Finset in
theorem Partition.total (h : S.Partition n live) :
    ∑ i∈range n,(S.plans i).num=(univ.filter fun v => live v=true).card := by
  rw [← sum_length_of_once n (fun i => (S.plans i).entries) live S.core h.core h.once]
  exact sum_congr rfl fun i hi =>
    (VhostPlan.entries_length _ (h.bound i (mem_range.mp hi))).symm

end PlanSide

namespace PlanHist

variable {cfg : Config} {s t : PlanHist} {v : Vid}

/-- The list counts its devices, and both directions of plans partition them. -/
structure Planned (cfg : Config) (s : PlanHist) : Prop where
  num : s.hist.list.Counted
  side : ∀ dir,(s.side dir).Partition (cfg.cores dir) s.hist.list.live

theorem init_planned (cfg : Config) : Planned cfg init :=
  ⟨VdevList.empty_counted,fun dir => PlanSide.init_partition (cfg.cores dir)⟩

theorem live_insert_eq (L : VdevList) (v : Vid) (d : DevPtr) :
    (L.insert v d).live=Function.update L.live v true := by
  funext u
  rw [VdevList.live_insert,Function.update_apply]

theorem live_remove_eq (L : VdevList) (v : Vid) :
    (L.remove v).live=Function.update L.live v false := by
  funext u
  rw [VdevList.live_remove,Function.update_apply]

theorem newDevice_planned (h : Planned cfg s) (hv : s.hist.list.live v=false)
    (ht : s.newDevice cfg v=some t) : Planned cfg t := by
  unfold newDevice at ht
  rw [if_neg (Nat.not_le.mpr (h.num.lt hv))] at ht
  split at ht
  · rename_i rx tx hrx htx
    have ht' := Option.some.inj ht
    subst ht'
    have hlist : (s.hist.newDevice v).list=s.hist.list.insert v s.hist.nextDev := by
      rw [Hist.newDevice,if_neg (Nat.not_le.mpr (h.num.lt hv))]
    refine ⟨?_,fun dir => ?_⟩
    · change (s.hist.newDevice v).list.Counted
      rw [hlist]
      exact VdevList.insert_counted h.num hv _
    · change PlanSide.Partition _ (s.hist.newDevice v).list.live _
      rw [hlist,live_insert_eq]
      cases dir with
      | rx => exact PlanSide.add_partition (h.side .rx) hv hrx
      | tx => exact PlanSide.add_partition (h.side .tx) hv htx
  · simp at ht

theorem newDevice_isSome (h : Planned cfg s) (hv : s.hist.list.live v=false) :
    (s.newDevice cfg v).isSome=true := by
  have hlt := h.num.lt hv
  -- the first plan is not full, because all plans together are not
  have hroom : ∀ dir,((s.side dir).add (cfg.cores dir) v).isSome=true := by
    intro dir
    refine PlanSide.add_isSome (cfg.cores_pos dir) ?_
    have htotal := (h.side dir).total
    rw [← h.num] at htotal
    have hone := Finset.single_le_sum (f:=fun i => ((s.side dir).plans i).num)
      (fun _ _ => Nat.zero_le _) (Finset.mem_range.mpr (cfg.cores_pos dir))
    omega
  obtain ⟨rx,hrx⟩ := Option.isSome_iff_exists.mp (hroom .rx)
  obtain ⟨tx,htx⟩ := Option.isSome_iff_exists.mp (hroom .tx)
  rw [newDevice,if_neg (Nat.not_le.mpr hlt),hrx,htx]
  rfl

theorem destroyFound_planned (h : Planned cfg s) {p : DevPtr} (hv : s.hist.list.vdevs v=some p)
    (ok : Bool) : Planned cfg (s.destroyFound cfg v p ok) := by
  have hlive : s.hist.list.live v=true := by
    rw [VdevList.live,hv]
    rfl
  have hrx := PlanSide.remove_eq (h.side .rx) hlive
  have htx := PlanSide.remove_eq (h.side .tx) hlive
  unfold destroyFound
  rw [hrx,htx]
  have hlist : (s.hist.destroyFound v p ok).list=s.hist.list.remove v := by
    unfold Hist.destroyFound
    rfl
  refine ⟨?_,fun dir => ?_⟩
  · change (s.hist.destroyFound v p ok).list.Counted
    rw [hlist]
    exact VdevList.remove_counted h.num hlive
  · change PlanSide.Partition _ (s.hist.destroyFound v p ok).list.live _
    rw [hlist,live_remove_eq]
    cases dir with
    | rx => exact PlanSide.remove_partition (h.side .rx) hlive hrx
    | tx => exact PlanSide.remove_partition (h.side .tx) hlive htx

theorem step_planned {a : PlanOp} (h : Planned cfg s) (ht : step cfg s a=some t) :
    Planned cfg t := by
  cases a with
  | newDevice v =>
    simp only [step] at ht
    split at ht
    · simp at ht
    · rename_i hv
      exact newDevice_planned h (by simpa using hv) ht
  | destroyDevice v ok =>
    obtain ⟨p,hp,rfl⟩ := Option.map_eq_some_iff.mp ht
    exact destroyFound_planned h hp ok
  | calculate dir stats =>
    have ht' := Option.some.inj ht
    subst ht'
    exact ⟨h.num,(Function.forall_update_iff s.side fun d S =>
      S.Partition (cfg.cores d) s.hist.list.live).mpr
        ⟨PlanSide.calculate_partition (h.side dir) dir stats,fun d _ => h.side d⟩⟩

/-- In every history of atomic operations each live vid is once in the plan of its core and
in no other, no other vid is in a plan, the plans fit their arrays and add up to `num`, removals
find their vid, and new_device finds room for any vid that is not live. -/
theorem plans_partition_live (cfg : Config) (s : PlanHist)
    (h : Reaches (step cfg) anyStep init s) (dir : Dir) :
    (∀ v,s.hist.list.live v=true → (s.side dir).core v < cfg.cores dir ∧
      ∀ i < cfg.cores dir,((s.side dir).plans i).entries.count v=
        if i=(s.side dir).core v then 1 else 0) ∧
    (∀ v,s.hist.list.live v=false → ∀ i < cfg.cores dir,v∉((s.side dir).plans i).entries) ∧
    ∑ i∈Finset.range (cfg.cores dir),((s.side dir).plans i).num=s.hist.list.num ∧
    (∀ i < cfg.cores dir,((s.side dir).plans i).num ≤ maxVhosts) ∧
    (∀ v,s.hist.list.live v=true → ((s.side dir).remove (cfg.cores dir) v).isSome=true) ∧
    ∀ v,s.hist.list.live v=false → (s.newDevice cfg v).isSome=true := by
  have hp : Planned cfg s := h.invariant (init_planned cfg) (fun h _ ht => step_planned h ht)
  have hs := hp.side dir
  refine ⟨fun v hv => ⟨hs.core v hv,fun i hi => ?_⟩,fun v hv i hi hm => ?_,?_,hs.bound,
    fun v hv => ?_,fun v hv => newDevice_isSome hp hv⟩
  · rw [hs.once v i hi]
    simp [hv,eq_comm]
  · have hl := ((hs.mem_iff hi).mp hm).1
    simp [hv] at hl
  · rw [hs.total,hp.num]
  · rw [PlanSide.remove_eq hs hv]
    rfl

/-- Three devices on one vhost_rx and two vhost_tx cores, one of them destroyed, and both
recalculations. -/
def threeDevices : List PlanOp :=
  [.newDevice 4,.newDevice 7,.newDevice 9,.calculate .rx fun _ _ => ⟨fun _ => 0,fun _ => 20,
    fun _ => 0,0⟩,.destroyDevice 7 true,.calculate .tx fun _ _ => ⟨fun _ => 0,fun _ => 0,
    fun _ => 0,0⟩]

theorem plans_partition_threeDevices :
    ∃ s,Reaches (step smallConfig) anyStep init s ∧ s.hist.list.live 9=true ∧
      s.hist.list.num=2 ∧ ((s.side .tx).remove 2 9).isSome=true ∧
      ((s.side .tx).plans 0).entries=[4,9] := by
  have hrun : (guardedRun (step smallConfig) anyStep init threeDevices).map
      (fun s => (s.hist.list.live 9,s.hist.list.num,((s.side .tx).plans 0).entries))=
      some (true,2,[4,9]) := by decide +kernel
  obtain ⟨s,hs,hf⟩ := exists_reaches_of_guardedRun threeDevices _ hrun
  obtain ⟨hlive,hf⟩ := Prod.mk.inj hf
  obtain ⟨hnum,hplan⟩ := Prod.mk.inj hf
  obtain ⟨-,-,-,-,hrem,-⟩ := plans_partition_live smallConfig s hs .tx
  exact ⟨s,hs,hlive,hnum,hrem 9 hlive,hplan⟩

end PlanHist

end Umanet
