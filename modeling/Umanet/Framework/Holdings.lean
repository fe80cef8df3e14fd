import Mathlib.Algebra.Order.BigOperators.Group.Finset
import Umanet.Framework.Batch
import Umanet.Framework.Custody

namespace Umanet.Framework

section
open Finset

variable {π α : Type} [Fintype π] [DecidableEq α]

/-- How often an element is held, over all places together. -/
def holders (f : π → List α) (a : α) : Nat := ∑ p,(f p).count a

theorem holders_append (f g : π → List α) (a : α) :
    holders (fun p => f p++g p) a=holders f a+holders g a := by
  simp only [holders,List.count_append]
  exact sum_add_distrib

theorem count_le_holders (f : π → List α) (p : π) (a : α) : (f p).count a ≤ holders f a :=
  single_le_sum (fun q _ => Nat.zero_le ((f q).count a)) (mem_univ p)

theorem eq_of_holders_le {f : π → List α} {a : α} {p q : π} (h : holders f a ≤ 1) (hp : a∈f p)
    (hq : a∈f q) : p=q := by
  classical
  by_contra hpq
  have hpair : ∑ r∈{p,q},(f r).count a ≤ holders f a := sum_le_sum_of_subset (subset_univ _)
  rw [sum_pair hpq] at hpair
  have hp' := List.count_pos_iff.mpr hp
  have hq' := List.count_pos_iff.mpr hq
  omega

variable [DecidableEq π]

theorem holders_update {f : π → List α} {p : π} {k : List α} (hk : f p=k) (l : List α) (a : α) :
    holders (Function.update f p l) a+k.count a=holders f a+l.count a := by
  have h := sum_change (f:=fun q => (f q).count a)
    (g:=fun q => (Function.update f p l q).count a) p
    (fun q hq => by rw [Function.update_of_ne hq])
  rw [Function.update_self] at h
  exact hk ▸ h

/-- Elements sorted by their places are held once for each time they occur. -/
theorem holders_bucket {β : Type} (dest : β → π) (tag : β → α) (l : List β) (a : α) :
    holders (fun p => bucket (fun x => decide (dest x=p)) tag l) a=(l.map tag).count a := by
  induction l with
  | nil => simp [holders,bucket]
  | cons x l ih =>
    have hrow : (fun p => bucket (fun y => decide (dest y=p)) tag (x::l))=
        fun p => Function.update (fun _ => []) (dest x) [tag x] p++
          bucket (fun y => decide (dest y=p)) tag l := by
      funext p
      rw [bucket_cons]
      by_cases hp : dest x=p
      · subst hp
        simp
      · simp [hp,Function.update_of_ne (Ne.symm hp)]
    have hnil : holders (fun _ : π => ([] : List α)) a=0 := by simp [holders]
    have hone := holders_update (f:=fun _ : π => ([] : List α)) (p:=dest x) rfl [tag x] a
    rw [hnil,List.count_nil,Nat.zero_add] at hone
    rw [hrow,holders_append,ih,List.map_cons,List.count_cons,← Nat.add_zero (holders _ a),hone,
      List.count_singleton,Nat.add_comm]

end

section
variable {α β : Type} [DecidableEq α]

def storeAll (mem : α → β) : List (α × β) → α → β
  | [] => mem
  | x::l => storeAll (Function.update mem x.1 x.2) l

theorem storeAll_of_notMem {mem : α → β} {l : List (α × β)} {a : α} (h : a∉l.map Prod.fst) :
    storeAll mem l a=mem a := by
  induction l generalizing mem with
  | nil => rfl
  | cons x l ih =>
    rw [List.map_cons,List.mem_cons,not_or] at h
    rw [storeAll,ih h.2,Function.update_of_ne h.1]

theorem storeAll_of_mem {mem : α → β} {l : List (α × β)} {a : α} {b : β}
    (hn : (l.map Prod.fst).Nodup) (h : (a,b)∈l) : storeAll mem l a=b := by
  induction l generalizing mem with
  | nil => cases h
  | cons x l ih =>
    obtain ⟨hx,hn'⟩ := List.nodup_cons.mp hn
    rw [storeAll]
    rcases List.mem_cons.mp h with h | h
    · subst h
      rw [storeAll_of_notMem hx,Function.update_self]
    · exact ih hn' h

end

theorem eq_of_push {α : Type} {cap : Nat} {l k : List α} {x : α} (h : push cap l x=some k) :
    k=l++[x] := by
  by_cases hl : l.length < cap
  · rw [push_of_lt hl] at h
    exact (Option.some.inj h).symm
  · rw [push_of_le (Nat.le_of_not_lt hl)] at h
    cases h

/-- A loop that puts each element of a batch behind one of several rows, or behind none. -/
theorem foldlM_rows {σ α β ρ : Type} [DecidableEq ρ] {one : σ → α → Option σ}
    {label : α → Option ρ} {tag : α → β} (row : σ → ρ → List β)
    (hnone : ∀ {s t x},one s x=some t → label x=none → row t=row s)
    (hsome : ∀ {s t x r},one s x=some t → label x=some r →
      row t=Function.update (row s) r (row s r++[tag x]))
    (l : List α) {s t : σ} (h : l.foldlM one s=some t) (r : ρ) :
    row t r=row s r++bucket (fun x => decide (label x=some r)) tag l := by
  induction l generalizing s with
  | nil =>
    have h' := Option.some.inj h
    subst h'
    simp [bucket]
  | cons x l ih =>
    rw [List.foldlM_cons] at h
    obtain ⟨u,hu,hr⟩ := Option.bind_eq_some_iff.mp h
    rw [ih hr,bucket_cons]
    cases hx : label x with
    | none =>
      rw [hnone hu hx]
      simp
    | some r' =>
      rw [hsome hu hx]
      by_cases hrr : r=r'
      · subst hrr
        simp
      · have hne : ¬r'=r := fun e => hrr e.symm
        simp [hrr,hne]

end Umanet.Framework
