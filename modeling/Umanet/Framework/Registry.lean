import Mathlib.Logic.Function.Basic

namespace Umanet.Framework

variable {K X : Type} [DecidableEq K]

def Lists (use : K → Option X) (table : X → Prop) : Prop := ∀ x,table x ↔ ∃ k,use k=some x

variable {use : K → Option X} {table table' : X → Prop} {k : K}

theorem uses_update (z : Option X) (x : X) :
    (∃ j,Function.update use k z j=some x) ↔ z=some x ∨ ∃ j,j≠k ∧ use j=some x := by
  constructor
  · intro ⟨j,hj⟩
    by_cases he : j=k
    · subst he
      rw [Function.update_self] at hj
      exact .inl hj
    · rw [Function.update_of_ne he] at hj
      exact .inr ⟨j,he,hj⟩
  · intro h
    cases h with
    | inl hz => exact ⟨k,by rw [Function.update_self]; exact hz⟩
    | inr h =>
      obtain ⟨j,hne,hj⟩ := h
      exact ⟨j,by rw [Function.update_of_ne hne]; exact hj⟩

/-- A user takes a value, and the table may add it: it stays exact if it did, and if the value
given up has another user. -/
theorem Lists.assign (h : Lists use table) {z : Option X}
    (hsame : ∀ y,z≠some y → (table' y ↔ table y)) :
    Lists (Function.update use k z) table' ↔ (∀ x,z=some x → table' x) ∧
      ∀ y,use k=some y → z≠some y → ∃ j,j≠k ∧ use j=some y := by
  constructor
  · intro h'
    refine ⟨fun x hx => (h' x).mpr ((uses_update z x).mpr (.inl hx)),fun y hy hne => ?_⟩
    have hin : table' y := (hsame y hne).mpr ((h y).mpr ⟨k,hy⟩)
    exact ((uses_update z y).mp ((h' y).mp hin)).resolve_left hne
  · intro ⟨hadd,hother⟩ y
    rw [uses_update]
    by_cases hz : z=some y
    · exact iff_of_true (hadd y hz) (.inl hz)
    · rw [hsame y hz,h y]
      constructor
      · intro ⟨j,hj⟩
        by_cases he : j=k
        · subst he
          exact .inr (hother y hj hz)
        · exact .inr ⟨j,he,hj⟩
      · intro hy
        obtain ⟨j,-,hj⟩ := hy.resolve_left hz
        exact ⟨j,hj⟩

/-- A user leaves and the table drops its value: it stays exact if nobody else has the value. -/
theorem Lists.release (h : Lists use table) {x : X} (hk : use k=some x)
    (hsame : ∀ y,y≠x → (table' y ↔ table y)) (hx : ¬table' x) :
    Lists (Function.update use k none) table' ↔ ∀ j,j≠k → use j≠some x := by
  constructor
  · intro h' j hne hj
    exact hx ((h' x).mpr ((uses_update none x).mpr (.inr ⟨j,hne,hj⟩)))
  · intro halone y
    rw [uses_update]
    by_cases hy : y=x
    · subst hy
      refine iff_of_false hx ?_
      intro hu
      cases hu with
      | inl hu => cases hu
      | inr hu =>
        obtain ⟨j,hne,hj⟩ := hu
        exact halone j hne hj
    · rw [hsame y hy,h y]
      constructor
      · intro ⟨j,hj⟩
        refine .inr ⟨j,?_,hj⟩
        intro he
        subst he
        exact hy (Option.some.inj (hj.symm.trans hk))
      · intro hu
        cases hu with
        | inl hu => cases hu
        | inr hu =>
          obtain ⟨j,-,hj⟩ := hu
          exact ⟨j,hj⟩

end Umanet.Framework
