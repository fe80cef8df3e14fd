import Mathlib.Algebra.BigOperators.Fin
import Umanet.Vhost.PlanHistory

namespace Umanet

namespace VdevRxStats

open Finset

def byteTotal (st : VdevRxStats) : Nat := ∑ k,st.byteWnd k
def pktTotal (st : VdevRxStats) : Nat := ∑ k,st.pktWnd k

theorem wndSum_eq (w : Fin windowSize → Nat) : wndSum w=(∑ k,w k)%2^32 := by
  have hloop : ∀ (l : List (Fin windowSize)) (acc : Nat),
      l.foldl (fun acc k => (acc+w k)%2^32) (acc%2^32)=(acc+(l.map w).sum)%2^32 := by
    intro l
    induction l with
    | nil =>
      intro acc
      simp
    | cons k l ih =>
      intro acc
      rw [List.foldl_cons,Nat.mod_add_mod,ih,List.map_cons,List.sum_cons,Nat.add_assoc]
  have h := hloop (List.finRange windowSize) 0
  rw [Nat.zero_mod,Nat.zero_add] at h
  rw [wndSum,h,← Fin.sum_univ_def]

/-- A device that is flagged has sent more than one of the thresholds. -/
theorem active_exceeds {st : VdevRxStats} (h : st.active=true) :
    byteActiveThreshold < st.byteTotal ∨ pktActiveThreshold < st.pktTotal := by
  simp only [active,Bool.or_eq_true,decide_eq_true_eq,wndSum_eq] at h
  rcases h with h | h
  · exact .inl (lt_of_lt_of_le h (Nat.mod_le _ _))
  · exact .inr (lt_of_lt_of_le h (Nat.mod_le _ _))

theorem sum_update_zero_le (w : Fin windowSize → Nat) (i : Fin windowSize) :
    ∑ k,Function.update w i 0 k ≤ ∑ k,w k := by
  apply sum_le_sum
  intro k _
  by_cases hk : k=i
  · rw [hk,Function.update_self]
    exact Nat.zero_le _
  · rw [Function.update_of_ne hk]

theorem rotate_total_le (st : VdevRxStats) :
    st.rotate.byteTotal ≤ st.byteTotal ∧ st.rotate.pktTotal ≤ st.pktTotal :=
  ⟨sum_update_zero_le _ _,sum_update_zero_le _ _⟩

theorem iterate_rotate_total_le (n : Nat) (st : VdevRxStats) :
    (rotate^[n] st).byteTotal ≤ st.byteTotal ∧ (rotate^[n] st).pktTotal ≤ st.pktTotal := by
  induction n with
  | zero => exact ⟨le_rfl,le_rfl⟩
  | succ n ih =>
    rw [Function.iterate_succ_apply']
    have hone := rotate_total_le (rotate^[n] st)
    exact ⟨hone.1.trans ih.1,hone.2.trans ih.2⟩

end VdevRxStats

section
variable {L : VdevList} {v : Vid}

/-- A live vid in the RX scan: its window is rotated at every entry, and the last entry decides. -/
theorem scan_rx (hv : L.live v=true) (l : List Vid) (c : Scan) :
    (l.foldl (scanEntry .rx L) c).stats v=VdevRxStats.rotate^[l.count v] (c.stats v) ∧
    (l.foldl (scanEntry .rx L) c).isActive v=
      if v∈l then (VdevRxStats.rotate^[l.count v-1] (c.stats v)).active else c.isActive v := by
  induction l using List.reverseRecOn with
  | nil => exact ⟨rfl,rfl⟩
  | append_singleton l u ih =>
    obtain ⟨hst,hact⟩ := ih
    rw [List.foldl_append,List.foldl_cons,List.foldl_nil,List.count_append]
    by_cases hu : u=v
    · subst hu
      simp only [scanEntry,hv,if_true,Function.update_self,List.count_singleton_self,hst]
      refine ⟨(Function.iterate_succ_apply' _ _ _).symm,?_⟩
      rw [if_pos (by simp),Nat.add_sub_cancel]
    · have hcount : [u].count v=0 := by
        rw [List.count_eq_zero,List.mem_singleton]
        exact fun h => hu h.symm
      have hmem : v∈l++[u] ↔ v∈l := by
        rw [List.mem_append,List.mem_singleton]
        exact ⟨fun h => h.resolve_right fun h => hu h.symm,.inl⟩
      rw [hcount,Nat.add_zero,if_congr hmem rfl rfl,← hst,← hact]
      by_cases hlu : L.live u=true
      · simp only [scanEntry,hlu,if_true]
        rw [Function.update_of_ne (Ne.symm hu),Function.update_of_ne (Ne.symm hu)]
        exact ⟨rfl,rfl⟩
      · simp only [scanEntry,hlu]
        exact ⟨rfl,rfl⟩

theorem scan_tx (hv : L.live v=true) (l : List Vid) (c : Scan) :
    (l.foldl (scanEntry .tx L) c).isActive v=(decide (v∈l) || c.isActive v) := by
  induction l generalizing c with
  | nil => simp
  | cons u l ih =>
    rw [List.foldl_cons,ih]
    by_cases hu : v=u
    · subst hu
      simp [scanEntry,hv]
    · by_cases hlu : L.live u=true
      · simp [scanEntry,hlu,hu]
      · simp [scanEntry,hlu,hu]

end

/-- What makes `is_active[v]` end up set: an entry in the old plan, a device, and on the RX side
sums above a threshold when the scan comes to the last of its entries. -/
def Flagged (dir : Dir) (L : VdevList) (stats : Vid → VdevRxStats) (p : VhostPlan) (v : Vid) :
    Prop :=
  v∈p.entries ∧ L.live v=true ∧
    (dir=.rx → (VdevRxStats.rotate^[p.entries.count v-1] (stats v)).active=true)

theorem scanPlan_active_iff {dir : Dir} {L : VdevList} {stats : Vid → VdevRxStats} {p : VhostPlan}
    {v : Vid} : (scanPlan dir L stats p).isActive v=true ↔ Flagged dir L stats p v := by
  constructor
  · intro h
    obtain ⟨hmem,hlive⟩ := scanPlan_active dir L stats p v h
    refine ⟨hmem,hlive,?_⟩
    intro hdir
    subst hdir
    rw [scanPlan,(scan_rx hlive _ _).2,if_pos hmem] at h
    exact h
  · rintro ⟨hmem,hlive,hact⟩
    cases dir with
    | rx =>
      rw [scanPlan,(scan_rx hlive _ _).2,if_pos hmem]
      exact hact rfl
    | tx =>
      rw [scanPlan,scan_tx hlive,decide_eq_true hmem]
      rfl

theorem Flagged.exceeds {L : VdevList} {stats : Vid → VdevRxStats} {p : VhostPlan} {v : Vid}
    (h : Flagged .rx L stats p v) :
    byteActiveThreshold < (stats v).byteTotal ∨ pktActiveThreshold < (stats v).pktTotal := by
  have hle := VdevRxStats.iterate_rotate_total_le (p.entries.count v-1) (stats v)
  rcases VdevRxStats.active_exceeds (h.2.2 rfl) with hb | hp
  · exact .inl (hb.trans_le hle.1)
  · exact .inr (hp.trans_le hle.2)

theorem probe_scan_iff {dir : Dir} {L : VdevList} {stats : Vid → VdevRxStats} {p : VhostPlan}
    {aff : Vid → Nat} {i : Nat} {v : Vid} :
    probe L aff i (scanPlan dir L stats p).isActive v=true ↔
      ¬Flagged dir L stats p v ∧ L.live v=true ∧ aff v=i := by
  rw [← scanPlan_active_iff]
  simp only [probe,Bool.and_eq_true,Bool.not_eq_true',decide_eq_true_eq,Bool.not_eq_true,and_assoc]

/-- The new plan of a core: the flagged vids, then the others with affinity to the core. -/
theorem PlanSide.calculate_split (S : PlanSide) (dir : Dir) {n : Nat} (L : VdevList)
    (stats : Nat → Vid → VdevRxStats) {i : Nat} (hi : i < n) :
    ∃ active probed,((S.calculate dir n L stats).plans i).entries=active++probed ∧
      active.Pairwise (· < ·) ∧ probed.Pairwise (· < ·) ∧
      (∀ v,v∈active ↔ Flagged dir L (stats i) (S.plans i) v) ∧
      ∀ v,v∈probed ↔ ¬Flagged dir L (stats i) (S.plans i) v ∧ L.live v=true ∧ S.core v=i := by
  have hnew : (S.calculate dir n L stats).plans i=
      calculatePlan L S.core i (scanPlan dir L (stats i) (S.plans i)).isActive := if_pos hi
  rw [hnew]
  refine ⟨_,_,(calculatePlan_entries L S.core i _).1,(List.pairwise_lt_finRange _).filter _,
    (List.pairwise_lt_finRange _).filter _,?_,?_⟩
  · intro v
    rw [List.mem_filter,scanPlan_active_iff]
    exact and_iff_right (List.mem_finRange v)
  · intro v
    rw [List.mem_filter,probe_scan_iff]
    exact and_iff_right (List.mem_finRange v)

/-- Whatever the old plans, affinities and statistics were: after the recalculation each core's
plan has every vid once at most, fits its array, has live vids only, and of these all with
affinity to the core; another one only if the old plan had it and, on the RX side, its traffic
exceeds a threshold. The flagged ones come first, then the probed ones, both in order. -/
theorem calculate_repairs (S : PlanSide) (dir : Dir) (n : Nat) (L : VdevList)
    (stats : Nat → Vid → VdevRxStats) (i : Nat) (hi : i < n) :
    let new := (S.calculate dir n L stats).plans i
    new.entries.Nodup ∧ new.num ≤ maxVhosts ∧ new.entries.length=new.num ∧
    (∀ v∈new.entries,L.live v=true) ∧
    (∀ v,L.live v=true → S.core v=i → v∈new.entries) ∧
    (∀ v∈new.entries,S.core v≠i → v∈(S.plans i).entries ∧
      (dir=.rx → byteActiveThreshold < (stats i v).byteTotal ∨
        pktActiveThreshold < (stats i v).pktTotal)) ∧
    ∃ active probed,new.entries=active++probed ∧ active.Pairwise (· < ·) ∧
      probed.Pairwise (· < ·) ∧
      (∀ v,v∈active ↔ Flagged dir L (stats i) (S.plans i) v) ∧
      ∀ v,v∈probed ↔ ¬Flagged dir L (stats i) (S.plans i) v ∧ L.live v=true ∧ S.core v=i := by
  intro new
  have hnew : new=calculatePlan L S.core i (scanPlan dir L (stats i) (S.plans i)).isActive :=
    if_pos hi
  have hnum : new.num ≤ maxVhosts := by
    rw [hnew]
    exact (calculatePlan_entries L S.core i _).2
  obtain ⟨active,probed,hentries,hsorted,hsorted',hactive,hprobed⟩ :=
    S.calculate_split dir L stats hi
  have hmem : ∀ v,v∈new.entries ↔ Flagged dir L (stats i) (S.plans i) v ∨
      ¬Flagged dir L (stats i) (S.plans i) v ∧ L.live v=true ∧ S.core v=i := by
    intro v
    rw [hentries,List.mem_append,hactive,hprobed]
  refine ⟨?_,hnum,VhostPlan.entries_length _ hnum,?_,?_,?_,?_⟩
  · apply List.nodup_iff_count_le_one.mpr
    intro v
    rw [hnew,calculatePlan_count]
    split_ifs <;> decide
  · intro v hv
    rcases (hmem v).mp hv with hf | ⟨-,hlive,-⟩
    · exact hf.2.1
    · exact hlive
  · intro v hlive hcore
    apply (hmem v).mpr
    by_cases hf : Flagged dir L (stats i) (S.plans i) v
    · exact .inl hf
    · exact .inr ⟨hf,hlive,hcore⟩
  · intro v hv hcore
    rcases (hmem v).mp hv with hf | ⟨-,-,hc⟩
    · refine ⟨hf.1,?_⟩
      intro hdir
      subst hdir
      exact hf.exceeds
    · exact absurd hc hcore
  · exact ⟨active,probed,hentries,hsorted,hsorted',hactive,hprobed⟩

/-- A plan with vid 4 twice, vid 9 of another core and the dead vid 2. -/
def lostUpdates : PlanSide :=
  ⟨fun _ => ⟨4,fun k => if k=0 then 9 else if k=3 then 2 else 4⟩,fun v => if v=9 then 1 else 0⟩

/-- Vids 4, 7 and 9 are live; only vid 9 sends. -/
theorem calculate_repairs_lostUpdates :
    let L := ((VdevList.empty.insert 4 0).insert 7 1).insert 9 2
    let stats : Nat → Vid → VdevRxStats := fun _ v =>
      ⟨fun _ => 0,fun _ => if v=9 then 20 else 0,fun _ => 0,0⟩
    ((lostUpdates.calculate .rx 1 L stats).plans 0).entries=[9,4,7] ∧
    ((lostUpdates.calculate .rx 1 L stats).plans 0).entries.Nodup := by
  intro L stats
  exact ⟨by decide +kernel,(calculate_repairs lostUpdates .rx 1 L stats 0 (by decide)).1⟩

end Umanet
