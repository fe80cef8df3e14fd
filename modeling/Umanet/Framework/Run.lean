import Mathlib.Logic.Relation

namespace Umanet.Framework

variable {S A : Type}

/-- A run of a partial step function; `none` is a step that is not enabled. -/
def run (step : S → A → Option S) : S → List A → Option S
  | s,[] => some s
  | s,a::as => (step s a).bind fun t => run step t as

/-- States met by runs all of whose steps satisfy the guard. The guard sees the
state before the step and the action, never the result. -/
inductive Reaches (step : S → A → Option S) (guard : S → A → Prop) (s₀ : S) : S → Prop
  | refl : Reaches step guard s₀ s₀
  | tail {s t : S} {a : A} : Reaches step guard s₀ s → guard s a → step s a=some t →
      Reaches step guard s₀ t

def anyStep (_ : S) (_ : A) : Prop := True

instance (s : S) (a : A) : Decidable (anyStep s a) := isTrue trivial

theorem Reaches.invariant {step : S → A → Option S} {guard : S → A → Prop} {s₀ s : S}
    {I : S → Prop} (h : Reaches step guard s₀ s) (h0 : I s₀)
    (hs : ∀ {u t : S} {a : A}, I u → guard u a → step u a=some t → I t) : I s := by
  induction h with
  | refl => exact h0
  | tail _ hg ht ih => exact hs ih hg ht

theorem Reaches.trans {step : S → A → Option S} {g : S → A → Prop} {s₀ s₁ s₂ : S}
    (h : Reaches step g s₀ s₁) (k : Reaches step g s₁ s₂) : Reaches step g s₀ s₂ := by
  induction k with
  | refl => exact h
  | tail _ hg ht ih => exact .tail ih hg ht

/-- A run that stops at the first step that fails the guard. -/
def guardedRun (step : S → A → Option S) (g : S → A → Prop) [∀ s a,Decidable (g s a)] :
    S → List A → Option S
  | s,[] => some s
  | s,a::as => if g s a then (step s a).bind fun t => guardedRun step g t as else none

theorem guardedRun_reaches {step : S → A → Option S} {g : S → A → Prop}
    [∀ s a,Decidable (g s a)] {s t : S} (as : List A)
    (h : guardedRun step g s as=some t) : Reaches step g s t := by
  induction as generalizing s with
  | nil => cases h; exact .refl
  | cons a as ih =>
    rw [guardedRun] at h
    split at h
    · obtain ⟨u,hu,hr⟩ := Option.bind_eq_some_iff.mp h
      exact Reaches.trans (.tail .refl ‹_› hu) (ih hr)
    · simp at h

/-- The same, read off a projection of the state that can be evaluated. -/
theorem exists_reaches_of_guardedRun {B : Type} {step : S → A → Option S} {g : S → A → Prop}
    [∀ s a,Decidable (g s a)] {s : S} (as : List A) (f : S → B) {b : B}
    (h : (guardedRun step g s as).map f=some b) : ∃ t,Reaches step g s t ∧ f t=b := by
  obtain ⟨t,ht,hb⟩ := Option.map_eq_some_iff.mp h
  exact ⟨t,guardedRun_reaches as ht,hb⟩

/-- P holds in every state a run passes through, the first one included. -/
def Visits (step : S → A → Option S) (P : S → Prop) : S → List A → Prop
  | s,[] => P s
  | s,a::as => P s ∧ ∀ t,step s a=some t → Visits step P t as

theorem Visits.head {step : S → A → Option S} {P : S → Prop} {s : S} {as : List A}
    (h : Visits step P s as) : P s := by
  cases as with
  | nil => exact h
  | cons a as => exact h.1

def Meets (step : S → A → Option S) (g : S → A → Prop) : S → List A → Prop
  | _,[] => True
  | s,a::as => ∀ t,step s a=some t → g s a ∧ Meets step g t as

/-- A run whose steps meet the guard is a witness of reachability. -/
theorem reaches_of_meets {step : S → A → Option S} {g : S → A → Prop} {s t : S} (as : List A)
    (h : run step s as=some t) (hm : Meets step g s as) : Reaches step g s t := by
  induction as generalizing s with
  | nil =>
    have h' := Option.some.inj h
    subst h'
    exact .refl
  | cons a as ih =>
    obtain ⟨u,hu,hr⟩ := Option.bind_eq_some_iff.mp h
    obtain ⟨hg,hm'⟩ := hm u hu
    exact Reaches.trans (.tail .refl hg hu) (ih hr hm')

theorem meets_of_forall {step : S → A → Option S} {g : S → A → Prop} {as : List A}
    (h : ∀ s,∀ a∈as,g s a) (s : S) : Meets step g s as := by
  induction as generalizing s with
  | nil => trivial
  | cons a as ih =>
    intro t _
    exact ⟨h s a List.mem_cons_self,ih (fun s b hb => h s b (List.mem_cons_of_mem _ hb)) t⟩

theorem Meets.of_invariant {step : S → A → Option S} {g k : S → A → Prop} {I : S → Prop} {s : S}
    {as : List A} (h0 : I s) (hI : ∀ {s t a},I s → g s a → step s a=some t → I t)
    (hk : ∀ {s t a},I s → g s a → step s a=some t → k s a) (h : Meets step g s as) :
    Meets step k s as := by
  induction as generalizing s with
  | nil => trivial
  | cons a as ih =>
    intro t ht
    obtain ⟨hg,hr⟩ := h t ht
    exact ⟨hk h0 hg ht,ih (hI h0 hg ht) hr⟩

/-- A guard that is exact for single steps is exact for whole runs. The invariant may rest
on the guard. -/
theorem visits_iff_meets {step : S → A → Option S} {P I : S → Prop} {g : S → A → Prop}
    (hI : ∀ {s t a},I s → P s → g s a → step s a=some t → I t)
    (hP : ∀ {s t a},I s → P s → step s a=some t → (P t ↔ g s a))
    (s : S) (as : List A) (h0 : I s) (hp : P s) :
    Visits step P s as ↔ Meets step g s as := by
  induction as generalizing s with
  | nil => exact ⟨fun _ => trivial,fun _ => hp⟩
  | cons a as ih =>
    constructor
    · intro hv t ht
      have hr := hv.2 t ht
      have hpt : P t := hr.head
      have hg := (hP h0 hp ht).mp hpt
      exact ⟨hg,(ih t (hI h0 hp hg ht) hpt).mp hr⟩
    · intro hm
      refine ⟨hp,fun t ht => ?_⟩
      obtain ⟨hg,hr⟩ := hm t ht
      have hpt := (hP h0 hp ht).mpr hg
      exact (ih t (hI h0 hp hg ht) hpt).mpr hr

end Umanet.Framework
