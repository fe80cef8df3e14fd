import Umanet.System.Threads

namespace Umanet

open Framework

namespace Sys

/-- An exchange that falls between the lookup and the CAS of a removal on the same
core: the new plan still holds the vid, and is not at the address the removal
compares with. -/
def VictimKept (dir : Dir) (i : Nat) (new : PlanCell) : CtlPc → Prop
  | .remove d v _ (.load c) => d=dir ∧ c=i → v∈new.plan.entries
  | .remove d v _ (.cas c old _ _) => d=dir ∧ c=i → v∈new.plan.entries ∧ new.addr≠old
  | _ => True

def ExchangeKeeps (s : Sys) : SlowPc → Prop
  | .calcXchg dir _ i new => VictimKept dir i new s.ctl
  | _ => True

/-- No exchange of the slow path takes a vid out of the plan it is being removed from. -/
def RemovalUndisturbed (s : Sys) : Action → Prop
  | .slow _ => s.ExchangeKeeps s.slow
  | _ => True

instance (dir : Dir) (i : Nat) (new : PlanCell) (pc : CtlPc) :
    Decidable (VictimKept dir i new pc) :=
  match pc with
  | .remove d v _ (.load c) => inferInstanceAs (Decidable (d=dir ∧ c=i → v∈new.plan.entries))
  | .remove d v _ (.cas c old _ _) =>
    inferInstanceAs (Decidable (d=dir ∧ c=i → v∈new.plan.entries ∧ new.addr≠old))
  | .remove _ _ _ (.search _ _ _) | .remove _ _ _ (.lookup _) | .remove _ _ _ (.mapWrite _)
  | .idle | .newCheck _ _ | .newLoad _ _ | .newCas _ _ _ _ | .add _ _ _ | .dstFind _
  | .unlink _ _ _ | .dstLoad _ _ | .dstCas _ _ _ _ | .uninstall _ _ => isTrue trivial

instance (s : Sys) (pc : SlowPc) : Decidable (s.ExchangeKeeps pc) :=
  match pc with
  | .calcXchg dir _ i new => inferInstanceAs (Decidable (VictimKept dir i new s.ctl))
  | .main _ | .loop | .deq _ | .msgs _ _ | .link _ _ _ _ _ | .calcStart _ | .calcLoad _ _ _
  | .calcBuild _ _ _ _ | .calcFree _ _ _ _ => isTrue trivial

instance (s : Sys) (a : Action) : Decidable (s.RemovalUndisturbed a) :=
  match a with
  | .slow _ => inferInstanceAs (Decidable (s.ExchangeKeeps s.slow))
  | .ctl _ | .newDevice _ | .destroyDevice _ | .issue _ | .ethPoll _ _ | .ethLoad _
  | .ethNext _ => isTrue trivial

/-- The next step of the control thread is a successful CAS of vhost_rx_plan_remove or
vhost_tx_plan_remove for v on core c. -/
def removalCas (s : Sys) (o : Oracle) (dir : Dir) (v : Vid) (c : Nat) : CtlPc → Bool
  | .remove d u _ (.cas k old _ _) =>
    decide (d=dir ∧ u=v ∧ k=c ∧ (s.plans d k).addr=old ∧ o.spurious=false)
  | _ => false

def EditOk (s : Sys) : CtlPc → Prop
  | .add _ _ (.cas _ _ _ new) => new.plan.num ≤ maxVhosts
  | .remove dir v _ (.load c) => v∈(s.planOf dir c).entries
  | .remove dir v _ (.cas c old src new) => v∈(s.planOf dir c).entries ∧
      ((s.plans dir c).addr=old → src=s.planOf dir c) ∧ v∈src.entries ∧
      src.num ≤ maxVhosts ∧ new.plan=src.remove v
  | _ => True

def XchgOk : SlowPc → Prop
  | .calcXchg _ _ _ new => new.plan.num ≤ maxVhosts
  | _ => True

/-- Plans fit their array, and a removal under way has its vid where it looks. -/
structure RemovalInv (s : Sys) : Prop where
  bound : ∀ dir i,(s.planOf dir i).num ≤ maxVhosts
  edit : s.EditOk s.ctl
  xchg : XchgOk s.slow

variable {cfg : Config} {s t : Sys}

theorem RemovalInv.ctlMove (h : s.RemovalInv) (hc : s.EditOk t.ctl)
    (hp : t.plans=s.plans := by rfl) (hs : t.slow=s.slow := by rfl) : t.RemovalInv := by
  have hpl : t.planOf=s.planOf := by
    funext dir i
    simp only [planOf,hp]
  refine ⟨by rw [hpl]; exact h.bound,?_,by rw [hs]; exact h.xchg⟩
  cases ht : t.ctl with
  | add dir v pc => cases pc <;> rw [ht] at hc <;> exact hc
  | remove dir v p pc =>
    rw [ht] at hc
    cases pc with
    | load c =>
      simp only [EditOk,hpl]
      exact hc
    | cas c old src new =>
      simp only [EditOk,hpl,hp]
      exact hc
    | _ => trivial
  | _ => trivial

theorem RemovalInv.write (h : s.RemovalInv) {dir : Dir} {c : Nat} {new : PlanCell}
    (hp : t.plans=setPlan s.plans dir c new) (hb : new.plan.num ≤ maxVhosts) (d : Dir) (i : Nat) :
    (t.planOf d i).num ≤ maxVhosts := by
  rw [planOf_setPlan hp]
  split
  · exact hb
  · exact h.bound d i

theorem addStep_removal (h : s.RemovalInv) {dir : Dir} {v : Vid} {pc : PlanPc} {o : Oracle}
    (hc : s.ctl=.add dir v pc) (ht : s.addStep cfg o dir v pc=some t) : t.RemovalInv := by
  cases pc with
  | search i best min =>
    simp only [addStep] at ht
    split at ht
    · split at ht <;> obtain rfl := Option.some.inj ht
      · exact h.ctlMove trivial
      · exact h.ctlMove trivial
    · split at ht <;> obtain rfl := Option.some.inj ht
      · exact h.ctlMove trivial
      · exact h.ctlMove trivial
  | lookup i => simp [addStep] at ht
  | load c =>
    simp only [addStep] at ht
    split at ht
    · have ht' := Option.some.inj ht
      subst ht'
      exact h.ctlMove trivial
    · rename_i hroom
      rw [loadCopy] at ht
      split at ht
      · simp at ht
      · have ht' := Option.some.inj ht
        subst ht'
        exact h.ctlMove (Nat.not_le.mp hroom)
  | cas c old src new =>
    have he := h.edit
    rw [hc] at he
    have ht' := Option.some.inj ht
    subst ht'
    unfold casPlan
    split
    · exact ⟨h.write rfl he,trivial,h.xchg⟩
    · exact h.ctlMove trivial
  | mapWrite c =>
    cases dir <;> obtain rfl := Option.some.inj ht
    · exact h.ctlMove trivial
    · exact h.ctlMove trivial

theorem removeStep_removal (h : s.RemovalInv) {dir : Dir} {v : Vid} {p : DevPtr} {pc : PlanPc}
    {o : Oracle} (hc : s.ctl=.remove dir v p pc) (ht : s.removeStep cfg o dir v p pc=some t) :
    t.RemovalInv := by
  have he := h.edit
  rw [hc] at he
  cases pc with
  | search i best min => simp [removeStep] at ht
  | lookup i =>
    simp only [removeStep] at ht
    split at ht
    · split at ht <;> obtain rfl := Option.some.inj ht
      · rename_i hv
        exact h.ctlMove hv
      · exact h.ctlMove trivial
    · have ht' := Option.some.inj ht
      subst ht'
      exact h.ctlMove trivial
  | load c =>
    rw [removeStep,loadCopy] at ht
    split at ht
    · simp at ht
    · have ht' := Option.some.inj ht
      subst ht'
      exact h.ctlMove ⟨he,fun _ => rfl,he,h.bound dir c,rfl⟩
  | cas c old src new =>
    obtain ⟨hpub,-,hv,hb,hnew⟩ := he
    have ht' := Option.some.inj ht
    subst ht'
    unfold casPlan
    split
    · have hr := (src.remove_removesOnly v hb).mpr hv
      exact ⟨h.write rfl (hnew ▸ hr.bound),trivial,h.xchg⟩
    · exact h.ctlMove hpub
  | mapWrite c =>
    cases dir <;> obtain rfl := Option.some.inj ht
    · exact h.ctlMove trivial
    · exact h.ctlMove trivial

theorem unlinkStep_removal (h : s.RemovalInv) (v : Vid) (p : DevPtr) (pc : UnlinkPc) :
    (s.unlinkStep v p pc).RemovalInv := by
  cases pc with
  | test =>
    simp only [unlinkStep]
    split
    · exact h.ctlMove trivial
    · exact h.ctlMove trivial
  | routeTest =>
    simp only [unlinkStep]
    split
    · exact h.ctlMove trivial
    · exact h.ctlMove trivial
  | _ => exact h.ctlMove trivial

theorem ctlStep_removal (h : s.RemovalInv) {L : VdevList} {o : Oracle}
    (ht : s.ctlStep cfg L o=some t) : t.RemovalInv := by
  cases hc : s.ctl with
  | add dir v pc =>
    simp only [ctlStep,hc] at ht
    exact addStep_removal h hc ht
  | remove dir v p pc =>
    simp only [ctlStep,hc] at ht
    exact removeStep_removal h hc ht
  | unlink v p pc =>
    simp only [ctlStep,hc] at ht
    have ht' := Option.some.inj ht
    subst ht'
    exact unlinkStep_removal h v p pc
  | idle => simp [ctlStep,hc] at ht
  | dstLoad v p =>
    simp only [ctlStep,hc] at ht
    split at ht
    · have ht' := Option.some.inj ht
      subst ht'
      exact h.ctlMove trivial
    · split at ht <;> obtain rfl := Option.some.inj ht
      · exact h.ctlMove trivial
      · exact h.ctlMove trivial
  | uninstall v p =>
    simp only [ctlStep,hc] at ht
    have ht' := Option.some.inj ht
    subst ht'
    exact h.ctlMove trivial
  | _ =>
    simp only [ctlStep,hc] at ht
    split at ht <;> obtain rfl := Option.some.inj ht
    · exact h.ctlMove trivial
    · exact h.ctlMove trivial

theorem RemovalInv.slowMove (h : s.RemovalInv) (hx : XchgOk t.slow)
    (hp : t.plans=s.plans := by rfl) (hc : t.ctl=s.ctl := by rfl) : t.RemovalInv := by
  have hm : ({s with slow:=t.slow} : Sys).RemovalInv := ⟨h.bound,h.edit,hx⟩
  exact hm.ctlMove (by rw [hc]; exact hm.edit) hp rfl

theorem exchange_removal (h : s.RemovalInv) {dir : Dir} {snap : VdevList} {i : Nat}
    {new : PlanCell} {old : Ptr} (hw : s.slow=.calcXchg dir snap i new)
    (hk : VictimKept dir i new s.ctl) :
    RemovalInv {s with plans:=setPlan s.plans dir i new,slow:=.calcFree dir snap i old} := by
  have hx := h.xchg
  rw [hw] at hx
  refine ⟨h.write rfl hx,?_,trivial⟩
  have he := h.edit
  cases hc : s.ctl with
  | add d v pc => cases pc <;> rw [hc] at he <;> exact he
  | remove d v p pc =>
    rw [hc] at he hk
    cases pc with
    | load c =>
      by_cases hdc : d=dir ∧ c=i
      · simpa [EditOk,planOf,setPlan,hdc] using hk hdc
      · simpa [EditOk,planOf,setPlan,hdc] using he
    | cas c old src new' =>
      by_cases hdc : d=dir ∧ c=i
      · obtain ⟨hin,hne⟩ := hk hdc
        simpa [EditOk,planOf,setPlan,hdc,hin,hne] using he.2.2
      · simpa [EditOk,planOf,setPlan,hdc] using he
    | _ => trivial
  | _ => trivial

theorem calcStep_removal (h : s.RemovalInv) {L : VdevList} {o : Oracle} {pc : SlowPc}
    (hg : s.RemovalUndisturbed (.slow o)) (hc : s.slow=pc)
    (ht : s.calcStep cfg L o pc=some t) : t.RemovalInv := by
  cases pc with
  | calcStart dir =>
    have ht' := Option.some.inj ht
    subst ht'
    exact h.slowMove trivial
  | calcLoad dir snap i =>
    simp only [calcStep] at ht
    split at ht
    · have ht' := Option.some.inj ht
      subst ht'
      exact h.slowMove trivial
    · cases dir <;> obtain rfl := Option.some.inj ht
      · exact h.slowMove trivial
      · exact h.slowMove trivial
  | calcBuild dir snap i act =>
    simp only [calcStep] at ht
    split at ht
    · simp at ht
    · have ht' := Option.some.inj ht
      subst ht'
      have hb := (calculatePlan_entries snap (s.coreMap dir) i act).2
      generalize calculatePlan snap (s.coreMap dir) i act=new at hb
      exact h.slowMove hb
  | calcXchg dir snap i new =>
    rw [RemovalUndisturbed,hc] at hg
    have ht' := Option.some.inj ht
    subst ht'
    exact exchange_removal h hc hg
  | calcFree dir snap i old =>
    have ht' := Option.some.inj ht
    subst ht'
    exact h.slowMove trivial
  | _ => simp [calcStep] at ht

theorem slowStep_removal (h : s.RemovalInv) {o : Oracle} (hg : s.RemovalUndisturbed (.slow o))
    (ht : s.slowStep cfg o=some t) : t.RemovalInv := by
  cases hc : s.slow with
  | main pc =>
    simp only [slowStep,hc] at ht
    have ht' := Option.some.inj ht
    subst ht'
    cases pc <;> exact h.slowMove trivial
  | loop =>
    simp only [slowStep,hc] at ht
    obtain ⟨L,-,rfl⟩ := Option.map_eq_some_iff.mp ht
    exact h.slowMove trivial
  | deq snap =>
    simp only [slowStep,hc] at ht
    split at ht
    · have ht' := Option.some.inj ht
      subst ht'
      exact h.slowMove trivial
    · simp at ht
  | msgs snap ms =>
    cases ms <;> simp only [slowStep,hc] at ht <;> split at ht <;>
      obtain rfl := Option.some.inj ht <;> exact h.slowMove trivial
  | link snap ms p d pc =>
    simp only [slowStep,hc] at ht
    have ht' := Option.some.inj ht
    subst ht'
    cases pc with
    | routeTest | flowTest =>
      simp only [linkStep]
      split
      · exact h.slowMove trivial
      · exact h.slowMove trivial
    | _ => exact h.slowMove trivial
  | _ =>
    simp only [slowStep,hc] at ht
    obtain ⟨L,-,hs⟩ := Option.bind_eq_some_iff.mp ht
    exact calcStep_removal h hg hc hs

theorem step_removal (h : s.RemovalInv) {a : Action} (hg : s.RemovalUndisturbed a)
    (ht : s.step cfg a=some t) : t.RemovalInv := by
  cases a with
  | newDevice v =>
    obtain ⟨-,-,-,rfl⟩ := step_newDevice ht
    exact h.ctlMove trivial
  | destroyDevice v =>
    obtain ⟨-,-,rfl⟩ := step_destroyDevice ht
    exact h.ctlMove trivial
  | ctl o =>
    obtain ⟨L,-,hs⟩ := Option.bind_eq_some_iff.mp ht
    exact ctlStep_removal h hs
  | slow o => exact slowStep_removal h hg ht
  | issue m =>
    have ht' := Option.some.inj ht
    subst ht'
    exact h.slowMove h.xchg
  | ethPoll c frames =>
    obtain ⟨-,rfl⟩ := step_ethPoll ht
    exact h.slowMove h.xchg
  | ethLoad c =>
    obtain ⟨frames,-,rfl⟩ := step_ethLoad ht
    exact h.slowMove h.xchg
  | ethNext c =>
    obtain ⟨snap,frames,-,rfl | rfl⟩ := step_ethNext ht
    · exact h.slowMove h.xchg
    · exact h.slowMove h.xchg

theorem init_removal (cfg : Config) : (Sys.init cfg).RemovalInv :=
  ⟨fun dir i => by simp [planOf,Sys.init],trivial,trivial⟩

theorem removalCas_spec (h : s.RemovalInv) {o : Oracle} {dir : Dir} {v : Vid} {c : Nat}
    (hc : s.removalCas o dir v c s.ctl=true) (ht : s.step cfg (.ctl o)=some t) :
    v∈(s.planOf dir c).entries ∧
      ∀ d i,t.planOf d i=if d=dir ∧ i=c then (s.planOf dir c).remove v else s.planOf d i := by
  obtain ⟨L,-,hs⟩ := Option.bind_eq_some_iff.mp ht
  have he := h.edit
  unfold removalCas at hc
  split at hc
  · rename_i d u p k old src new hctl
    obtain ⟨rfl,rfl,rfl,hcas⟩ := of_decide_eq_true hc
    rw [hctl] at he
    obtain ⟨hv,hsrc,-,-,hnew⟩ := he
    simp only [ctlStep,hctl,removeStep,casPlan,if_pos hcas] at hs
    have hs' := Option.some.inj hs
    subst hs'
    refine ⟨hv,fun d' i => ?_⟩
    rw [planOf_setPlan rfl,hnew,hsrc hcas.1]
  · simp at hc

/-- In a run whose exchanges keep the vids under removal, every successful CAS of a
removal takes its vid out of that one plan and touches nothing else. -/
theorem removal_hits_only_target (cfg : Config) (s t : Sys) (o : Oracle) (dir : Dir) (v : Vid)
    (c : Nat) (h : Reaches (Sys.step cfg) Sys.RemovalUndisturbed (Sys.init cfg) s)
    (hc : s.removalCas o dir v c s.ctl=true) (ht : s.step cfg (.ctl o)=some t) :
    RemovesOnly v (s.planOf dir c) (t.planOf dir c) ∧
      ∀ d i,¬(d=dir ∧ i=c) → t.planOf d i=s.planOf d i := by
  have hinv : s.RemovalInv := h.invariant (init_removal cfg) (fun hi hg hs => step_removal hi hg hs)
  obtain ⟨hv,hplan⟩ := removalCas_spec hinv hc ht
  refine ⟨?_,fun d i hdi => by rw [hplan,if_neg hdi]⟩
  rw [hplan,if_pos ⟨rfl,rfl⟩]
  exact ((s.planOf dir c).remove_removesOnly v (hinv.bound dir c)).mpr hv

/-- Two devices, then destroy_device(0) up to the CAS on its RX plan. -/
def removeAlone : List Action :=
  slowSteps 10 3 0++.newDevice 0::ctlSteps 20 14++.newDevice 1::ctlSteps 40 14++
    .destroyDevice 0::ctlSteps 60 7

theorem removal_hits_only_target_removeAlone :
    ∃ s t,Reaches (Sys.step smallConfig) Sys.RemovalUndisturbed (Sys.init smallConfig) s ∧
      s.removalCas (oracleOf 90 0) .rx 0 0 s.ctl=true ∧
      s.step smallConfig (.ctl (oracleOf 90 0))=some t ∧
      (s.planOf .rx 0).entries=[0,1] ∧ RemovesOnly 0 (s.planOf .rx 0) (t.planOf .rx 0) := by
  have h : (guardedRun (Sys.step smallConfig) Sys.RemovalUndisturbed (Sys.init smallConfig)
      removeAlone).map (fun s => (s.removalCas (oracleOf 90 0) .rx 0 0 s.ctl,
        (s.planOf .rx 0).entries,(s.step smallConfig (.ctl (oracleOf 90 0))).isSome))=
      some (true,[0,1],true) := by
    decide +kernel
  obtain ⟨s,hr,he⟩ := exists_reaches_of_guardedRun _ _ h
  obtain ⟨hc,he'⟩ := Prod.mk.inj he
  obtain ⟨hp,hsome⟩ := Prod.mk.inj he'
  obtain ⟨t,ht⟩ := Option.isSome_iff_exists.mp hsome
  exact ⟨s,t,hr,hc,ht,hp,(removal_hits_only_target _ s t _ .rx 0 0 hr hc ht).1⟩

/-- The same, with a rebuild of the RX plan between lookup and reload: the snapshot
of the slow path has no device 0 any more. -/
def removeAfterRebuild : List Action :=
  slowSteps 10 3 0++.newDevice 0::ctlSteps 20 14++.newDevice 1::ctlSteps 40 14++
    .destroyDevice 0::ctlSteps 60 6++slowSteps 70 8 0++ctlSteps 80 1

/-- Removal of vid 0 takes vid 1 out of the RX plan. -/
theorem removal_takes_other_vid :
    ∃ s t,Reaches (Sys.step smallConfig) anyStep (Sys.init smallConfig) s ∧
      s.removalCas (oracleOf 90 0) .rx 0 0 s.ctl=true ∧
      s.step smallConfig (.ctl (oracleOf 90 0))=some t ∧
      (s.planOf .rx 0).entries=[1] ∧ (t.planOf .rx 0).entries=[] ∧
      ¬RemovesOnly 0 (s.planOf .rx 0) (t.planOf .rx 0) := by
  have h : (guardedRun (Sys.step smallConfig) anyStep (Sys.init smallConfig)
      removeAfterRebuild).map (fun s => (s.removalCas (oracleOf 90 0) .rx 0 0 s.ctl,
        (s.planOf .rx 0).entries,
        (s.step smallConfig (.ctl (oracleOf 90 0))).map (fun t => (t.planOf .rx 0).entries)))=
      some (true,[1],some []) := by
    decide +kernel
  obtain ⟨s,hr,he⟩ := exists_reaches_of_guardedRun _ _ h
  obtain ⟨hc,he'⟩ := Prod.mk.inj he
  obtain ⟨hp,hstep⟩ := Prod.mk.inj he'
  obtain ⟨t,ht,hq⟩ := Option.map_eq_some_iff.mp hstep
  refine ⟨s,t,hr,hc,ht,hp,hq,fun hro => ?_⟩
  have ho := hro.others
  rw [hp,hq] at ho
  exact absurd ho (by decide)

end Sys

end Umanet
