import Mathlib.Data.List.Nodup

namespace Umanet.Framework

/-- Indices visited by `for (i = r; i < q; i += n)`. Every round but the last visits an index
below q, so q rounds are enough when n is positive. -/
def stride (n q : Nat) : Nat → Nat → List Nat
  | 0,_ => []
  | f+1,r => if r < q then r::stride n q f (r+n) else []

variable {n q f r i : Nat}

/-- It visits the indices below q that are reached from r in steps of n. -/
theorem mem_stride (hn : 0 < n) (hf : q ≤ r+f) :
    i∈stride n q f r ↔ i < q ∧ ∃ k,i=r+k*n := by
  induction f generalizing r with
  | zero =>
    simp only [stride,List.not_mem_nil,false_iff,not_and]
    rintro hi ⟨k,rfl⟩
    have hk := Nat.zero_le (k*n)
    omega
  | succ f ih =>
    rw [stride]
    by_cases hr : r < q
    · rw [if_pos hr,List.mem_cons,ih (by omega)]
      constructor
      · rintro (rfl | ⟨hi,k,rfl⟩)
        · exact ⟨hr,0,by simp⟩
        · exact ⟨hi,k+1,by rw [Nat.succ_mul]; omega⟩
      · rintro ⟨hi,k,rfl⟩
        cases k with
        | zero => exact Or.inl (by simp)
        | succ k => exact Or.inr ⟨hi,k,by rw [Nat.succ_mul]; omega⟩
    · rw [if_neg hr]
      simp only [List.not_mem_nil,false_iff,not_and]
      rintro hi ⟨k,rfl⟩
      have hk := Nat.zero_le (k*n)
      omega

/-- Started below n, the loop visits a residue class: each index is visited by the loop that
starts at its remainder and by no other. -/
theorem mem_stride_iff_mod (hr : r < n) (hf : q ≤ r+f) :
    i∈stride n q f r ↔ i < q ∧ i%n=r := by
  rw [mem_stride (Nat.zero_lt_of_lt hr) hf]
  refine and_congr Iff.rfl ⟨?_,fun h => ?_⟩
  · rintro ⟨k,rfl⟩
    rw [Nat.add_mul_mod_self_right,Nat.mod_eq_of_lt hr]
  · refine ⟨i/n,?_⟩
    have hd := Nat.mod_add_div i n
    rw [h,Nat.mul_comm] at hd
    exact hd.symm

theorem filter_eq_singleton {α : Type} {l : List α} {p : α → Bool} {x : α} (hl : l.Nodup)
    (hx : x∈l) (hp : ∀ y∈l,p y=true ↔ y=x) : l.filter p=[x] := by
  have hperm : (l.filter p).Perm [x] := by
    apply (List.perm_ext_iff_of_nodup (hl.filter p) (List.nodup_singleton x)).mpr
    intro y
    rw [List.mem_filter,List.mem_singleton]
    constructor
    · rintro ⟨hy,hpy⟩
      exact (hp y hy).mp hpy
    · rintro rfl
      exact ⟨hx,(hp y hx).mpr rfl⟩
  exact List.perm_singleton.mp hperm

end Umanet.Framework
