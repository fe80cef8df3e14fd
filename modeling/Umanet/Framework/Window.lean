import Mathlib.Algebra.BigOperators.Fin
import Mathlib.Algebra.Group.Fin.Basic
import Mathlib.Algebra.Group.Units.Equiv

namespace Umanet.Framework

variable {α : Type} {n : Nat} {w : Fin n → α} {i : Fin n} {z : α} {hist : List α}

/-- Slots used in a circle hold the end of a history, latest entry first: the slot k places
before the current one has the entry k places back, or z where the history is shorter. -/
def Holds (w : Fin n → α) (i : Fin n) (z : α) (hist : List α) : Prop :=
  ∀ k : Fin n,w (i-k)=hist.getD k z

theorem holds_const (i : Fin n) (z : α) : Holds (fun _ => z) i z [z] := by
  intro k
  cases h : k.val with
  | zero => rfl
  | succ j => rfl

variable [NeZero n]

theorem Holds.set {x : α} (h : Holds w i z (x::hist)) (y : α) :
    Holds (Function.update w i y) i z (y::hist) := by
  intro k
  by_cases hk : k=0
  · subst hk
    rw [sub_zero,Function.update_self]
    rfl
  · obtain ⟨j,hj⟩ := Nat.exists_eq_succ_of_ne_zero (Fin.val_ne_zero_iff.mpr hk)
    have hne : i-k≠i := fun he => hk (sub_eq_self.mp he)
    rw [Function.update_of_ne hne,h k,hj]
    rfl

theorem Holds.current {x : α} (h : Holds w i z (x::hist)) : w i=x := by
  have h0 := h 0
  rw [sub_zero] at h0
  exact h0

/-- The next slot becomes the current one and is cleared; the oldest entry is dropped. -/
theorem Holds.advance (h : Holds w i z hist) :
    Holds (Function.update w (i+1) z) (i+1) z (z::hist) := by
  intro k
  by_cases hk : k=0
  · subst hk
    rw [sub_zero,Function.update_self]
    rfl
  · have hne : i+1-k≠i+1 := fun he => hk (sub_eq_self.mp he)
    have hback : i+1-k=i-(k-1) := (sub_sub_eq_add_sub i k 1).symm
    have hval := Fin.val_sub_one_of_ne_zero hk
    obtain ⟨j,hj⟩ := Nat.exists_eq_succ_of_ne_zero (Fin.val_ne_zero_iff.mpr hk)
    rw [Function.update_of_ne hne,hback,h (k-1),hval,hj]
    rfl

section
open Finset
variable {β : Type} [AddCommMonoid β]

theorem sum_getD (m : Nat) (l : List β) : ∑ k : Fin m,l.getD k 0=(l.take m).sum := by
  induction m generalizing l with
  | zero => rfl
  | succ m ih =>
    rw [Fin.sum_univ_succ]
    cases l with
    | nil => simp
    | cons x l =>
      rw [List.take_succ_cons,List.sum_cons,← ih l]
      rfl

theorem Holds.sum {w : Fin n → β} {hist : List β} (h : Holds w i 0 hist) :
    ∑ k,w k=(hist.take n).sum := by
  rw [← sum_getD,← Equiv.sum_comp (Equiv.subLeft i) w]
  exact sum_congr rfl fun k _ => h k

end

end Umanet.Framework
