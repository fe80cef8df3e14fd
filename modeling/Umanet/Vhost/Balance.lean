import Umanet.Vhost.PlanHistory

namespace Umanet

open Framework

namespace PlanSide

/-- Any two of the first n plans differ in size by one at most. -/
def Balanced (n : Nat) (S : PlanSide) : Prop :=
  ∀ i < n,∀ j < n,(S.plans i).num ≤ (S.plans j).num+1

variable {n : Nat} {live : Vid → Bool} {S T : PlanSide} {v : Vid}

/-- The size of a plan is the number of live vids with affinity to its core. -/
theorem Partition.num_eq (h : S.Partition n live) {i : Nat} (hi : i < n) :
    (S.plans i).num=((List.finRange maxVhosts).filter
      fun v => live v && decide (S.core v=i)).length := by
  rw [← VhostPlan.entries_length _ (h.bound i hi)]
  apply List.Perm.length_eq
  apply List.perm_iff_count.mpr
  intro v
  rw [h.once v i hi,count_filter_finRange]
  simp only [Bool.and_eq_true,decide_eq_true_eq]

theorem add_balanced (h : S.Balanced n) (ha : S.add n v=some T) : T.Balanced n := by
  obtain ⟨k,hk,-,hmin,rfl⟩ := add_spec ha
  have hnum : ∀ i,(Function.update S.plans k ((S.plans k).append v) i).num=
      (S.plans i).num+if i=k then 1 else 0 := by
    intro i
    by_cases hik : i=k
    · rw [hik,Function.update_self,VhostPlan.append_num,if_pos rfl]
    · rw [Function.update_of_ne hik,if_neg hik,Nat.add_zero]
  intro i hi j hj
  have hold := h i hi j hj
  have hj' := hmin j hj
  show (Function.update S.plans k _ i).num ≤ (Function.update S.plans k _ j).num+1
  rw [hnum,hnum]
  by_cases hik : i=k
  · rw [if_pos hik,hik]
    split_ifs <;> omega
  · rw [if_neg hik]
    split_ifs <;> omega

theorem calculate_balanced {L : VdevList} (hp : S.Partition n L.live) (h : S.Balanced n) (dir : Dir)
    (stats : Nat → Vid → VdevRxStats) : (S.calculate dir n L stats).Balanced n := by
  have hnum : ∀ i < n,((S.calculate dir n L stats).plans i).num=(S.plans i).num := by
    intro i hi
    rw [(calculate_partition hp dir stats).num_eq hi,hp.num_eq hi]
    rfl
  intro i hi j hj
  rw [hnum i hi,hnum j hj]
  exact h i hi j hj

end PlanSide

namespace PlanHist

def keepsDevices (_ : PlanHist) : PlanOp → Prop
  | .destroyDevice _ _ => False
  | _ => True

variable {cfg : Config} {s t : PlanHist} {v : Vid}

/-- What a step without destruction does: a new device is added to both sides, or one side is
recalculated. -/
theorem step_cases {a : PlanOp} (hp : Planned cfg s) (ha : keepsDevices s a)
    (ht : step cfg s a=some t) :
    (∃ u,s.hist.list.live u=false ∧
      (∀ dir,(s.side dir).add (cfg.cores dir) u=some (t.side dir)) ∧
      t.hist.list.live=Function.update s.hist.list.live u true) ∨
    (∃ d stats,t.hist=s.hist ∧ t.side=Function.update s.side d
      ((s.side d).calculate d (cfg.cores d) s.hist.list stats)) := by
  cases a with
  | newDevice u =>
    simp only [step] at ht
    split at ht
    · cases ht
    · next hu =>
      have hdead : s.hist.list.live u=false := Bool.eq_false_iff.mpr hu
      have hlt := Nat.not_le.mpr (hp.num.lt hdead)
      refine .inl ⟨u,hdead,?_⟩
      rw [newDevice,if_neg hlt] at ht
      split at ht
      · next rx tx hrx htx =>
        have ht' := Option.some.inj ht
        subst ht'
        refine ⟨?_,?_⟩
        · intro dir
          cases dir with
          | rx => exact hrx
          | tx => exact htx
        · show (s.hist.newDevice u).list.live=_
          rw [Hist.newDevice,if_neg hlt]
          exact live_insert_eq _ _ _
      · cases ht
  | destroyDevice u ok => exact absurd ha id
  | calculate d stats =>
    have ht' := Option.some.inj ht
    subst ht'
    exact .inr ⟨d,stats,rfl,rfl⟩

/-- The plans are balanced, on top of being a partition. -/
structure PlannedBalanced (cfg : Config) (s : PlanHist) : Prop extends Planned cfg s where
  balanced : ∀ dir,(s.side dir).Balanced (cfg.cores dir)

theorem step_balanced {a : PlanOp} (h : PlannedBalanced cfg s) (ha : keepsDevices s a)
    (ht : step cfg s a=some t) : PlannedBalanced cfg t := by
  refine ⟨step_planned h.toPlanned ht,?_⟩
  intro dir
  rcases step_cases h.toPlanned ha ht with ⟨u,-,hadd,-⟩ | ⟨d,stats,-,hside⟩
  · exact PlanSide.add_balanced (h.balanced dir) (hadd dir)
  · rw [hside]
    by_cases hd : dir=d
    · subst hd
      rw [Function.update_self]
      exact PlanSide.calculate_balanced (h.side dir) (h.balanced dir) dir stats
    · rw [Function.update_of_ne hd]
      exact h.balanced dir

theorem step_core {a : PlanOp} (hp : Planned cfg s) (ha : keepsDevices s a)
    (ht : step cfg s a=some t) (hv : s.hist.list.live v=true) (dir : Dir) :
    t.hist.list.live v=true ∧ (t.side dir).core v=(s.side dir).core v := by
  rcases step_cases hp ha ht with ⟨u,hu,hadd,hlive⟩ | ⟨d,stats,hhist,hside⟩
  · have hvu : v≠u := by
      intro heq
      rw [heq,hu] at hv
      cases hv
    obtain ⟨i,-,-,-,hside⟩ := PlanSide.add_spec (hadd dir)
    rw [hlive,hside]
    exact ⟨(Function.update_of_ne hvu _ _).trans hv,Function.update_of_ne hvu _ _⟩
  · rw [hhist,hside]
    refine ⟨hv,?_⟩
    by_cases hd : dir=d
    · subst hd
      rw [Function.update_self]
      rfl
    · rw [Function.update_of_ne hd]

/-- In every history of new devices and recalculations, whatever the traffic: the plans of a
direction differ in size by one at most, and a device is from then on in the plan of the same
core and in no other. -/
theorem placement_balanced (cfg : Config) (s : PlanHist)
    (h : Reaches (step cfg) keepsDevices init s) (dir : Dir) :
    (∀ i < cfg.cores dir,∀ j < cfg.cores dir,
      ((s.side dir).plans i).num ≤ ((s.side dir).plans j).num+1) ∧
    ∀ v,s.hist.list.live v=true → ∀ t,Reaches (step cfg) keepsDevices s t →
      (t.side dir).core v=(s.side dir).core v ∧
      ∀ i < cfg.cores dir,v∈((t.side dir).plans i).entries ↔ (s.side dir).core v=i := by
  have hinit : PlannedBalanced cfg init :=
    ⟨init_planned cfg,fun _ _ _ _ _ => Nat.zero_le _⟩
  have hs : PlannedBalanced cfg s := h.invariant hinit fun hi ha ht => step_balanced hi ha ht
  refine ⟨hs.balanced dir,?_⟩
  intro v hv t ht
  have hrun : PlannedBalanced cfg t ∧ t.hist.list.live v=true ∧
      (t.side dir).core v=(s.side dir).core v := by
    induction ht with
    | refl => exact ⟨hs,hv,rfl⟩
    | tail _ ha hstep ih =>
      obtain ⟨hinv,hlive,hcore⟩ := ih
      obtain ⟨hlive',hcore'⟩ := step_core hinv.toPlanned ha hstep hlive dir
      exact ⟨step_balanced hinv ha hstep,hlive',hcore'.trans hcore⟩
  obtain ⟨hinv,hlive,hcore⟩ := hrun
  refine ⟨hcore,?_⟩
  intro i hi
  rw [(hinv.side dir).mem_iff hi,hcore]
  exact and_iff_right hlive

instance (s : PlanHist) : ∀ a,Decidable (keepsDevices s a)
  | .newDevice _ => isTrue trivial
  | .destroyDevice _ _ => isFalse id
  | .calculate _ _ => isTrue trivial

/-- Three devices on two vhost_tx cores, a recalculation after each. -/
def placements : List PlanOp :=
  [.newDevice 4,.calculate .tx fun _ _ => ⟨fun _ => 0,fun _ => 0,fun _ => 0,0⟩,.newDevice 7,
    .calculate .rx fun _ _ => ⟨fun _ => 0,fun _ => 20,fun _ => 0,0⟩,.newDevice 9]

theorem placement_balanced_placements :
    ∃ s,Reaches (step smallConfig) keepsDevices init s ∧
      ((s.side .tx).plans 0).entries=[4,9] ∧ ((s.side .tx).plans 1).entries=[7] ∧
      ((s.side .tx).plans 0).num ≤ ((s.side .tx).plans 1).num+1 := by
  have hrun : (guardedRun (step smallConfig) keepsDevices init placements).map
      (fun s => (((s.side .tx).plans 0).entries,((s.side .tx).plans 1).entries))=
      some ([4,9],[7]) := by decide +kernel
  obtain ⟨s,hs,hf⟩ := exists_reaches_of_guardedRun placements _ hrun
  obtain ⟨h0,h1⟩ := Prod.mk.inj hf
  exact ⟨s,hs,h0,h1,(placement_balanced smallConfig s hs .tx).1 0 (by decide) 1 (by decide)⟩

end PlanHist

end Umanet
