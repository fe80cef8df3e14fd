import Umanet.Framework.Run

namespace Umanet.Framework

variable {S A T B : Type}

/-- The abstract operations of a run: what each step stands for, in order. -/
def trace (step : S → A → Option S) (ops : S → A → List B) : S → List A → List B
  | _,[] => []
  | s,a::as =>
    match step s a with
    | none => []
    | some t => ops s a++trace step ops t as

theorem run_append {step : S → A → Option S} (as bs : List A) (s : S) :
    run step s (as++bs)=(run step s as).bind fun t => run step t bs := by
  induction as generalizing s with
  | nil => rfl
  | cons a as ih =>
    change (step s a).bind _=((step s a).bind _).bind _
    rw [Option.bind_assoc]
    congr 1
    funext t
    exact ih t

/-- A relation that every guarded step carries over to the abstract state after its operations
holds between the ends of a run and of its operations. -/
theorem run_refines {step : S → A → Option S} {guard : S → A → Prop} {ops : S → A → List B}
    {astep : T → B → T} {R : S → T → Prop}
    (hstep : ∀ {s t a u},R s u → guard s a → step s a=some t → R t ((ops s a).foldl astep u))
    (as : List A) {s t : S} {u : T} (hr : R s u) (h : run step s as=some t)
    (hm : Meets step guard s as) : R t ((trace step ops s as).foldl astep u) := by
  induction as generalizing s u with
  | nil =>
    have h' := Option.some.inj h
    subst h'
    exact hr
  | cons a as ih =>
    obtain ⟨w,hw,hrun⟩ := Option.bind_eq_some_iff.mp h
    obtain ⟨hg,hm'⟩ := hm w hw
    rw [trace,hw,List.foldl_append]
    exact ih (hstep hr hg hw) hrun hm'

/-- The same for abstract steps that may not be enabled: the operations are a run. -/
theorem run_projects {step : S → A → Option S} {ops : S → A → List B} {astep : T → B → Option T}
    {f : S → T} (hstep : ∀ {s t a},step s a=some t → run astep (f s) (ops s a)=some (f t))
    (as : List A) {s t : S} (h : run step s as=some t) :
    run astep (f s) (trace step ops s as)=some (f t) := by
  induction as generalizing s with
  | nil =>
    have h' := Option.some.inj h
    subst h'
    rfl
  | cons a as ih =>
    obtain ⟨w,hw,hrun⟩ := Option.bind_eq_some_iff.mp h
    rw [trace,hw,run_append,hstep hw]
    exact ih hrun

/-- A concrete trace is a witness of a run whose steps meet the guard. -/
theorem meets_of_guardedRun {step : S → A → Option S} {g : S → A → Prop}
    [∀ s a,Decidable (g s a)] {s t : S} (as : List A) (h : guardedRun step g s as=some t) :
    run step s as=some t ∧ Meets step g s as := by
  induction as generalizing s with
  | nil => exact ⟨h,trivial⟩
  | cons a as ih =>
    rw [guardedRun] at h
    split at h
    · next hg =>
      obtain ⟨u,hu,hrun⟩ := Option.bind_eq_some_iff.mp h
      obtain ⟨hr,hm⟩ := ih hrun
      refine ⟨?_,fun w hw => ?_⟩
      · rw [run,hu]
        exact hr
      · rw [hu] at hw
        have hw' := Option.some.inj hw
        subst hw'
        exact ⟨hg,hm⟩
    · cases h

theorem visits_of_guardedRun {step : S → A → Option S} {P : S → Prop} [DecidablePred P] {s t : S}
    (as : List A) (h : guardedRun step (fun u _ => P u) s as=some t) (ht : P t) :
    run step s as=some t ∧ Visits step P s as := by
  induction as generalizing s with
  | nil =>
    have h' := Option.some.inj h
    subst h'
    exact ⟨rfl,ht⟩
  | cons a as ih =>
    rw [guardedRun] at h
    split at h
    · next hp =>
      obtain ⟨u,hu,hrun⟩ := Option.bind_eq_some_iff.mp h
      obtain ⟨hr,hv⟩ := ih hrun
      refine ⟨?_,hp,fun w hw => ?_⟩
      · rw [run,hu]
        exact hr
      · rw [hu] at hw
        have hw' := Option.some.inj hw
        subst hw'
        exact hv
    · cases h

end Umanet.Framework
