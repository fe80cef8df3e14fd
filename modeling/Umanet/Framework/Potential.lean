import Mathlib.Algebra.BigOperators.Ring.Finset
import Umanet.Framework.Holdings
import Umanet.Framework.Run

namespace Umanet.Framework

section
open Finset

variable {π α : Type} [Fintype π]

/-- The weight of what all places have, if an element at place p weighs w p. -/
def load (w : π → Nat) (f : π → List α) : Nat := ∑ p,w p*(f p).length

theorem load_append (w : π → Nat) (f g : π → List α) :
    load w (fun p => f p++g p)=load w f+load w g := by
  simp only [load,List.length_append,Nat.mul_add]
  exact sum_add_distrib

theorem load_one (f : π → List α) : load (fun _ => 1) f=∑ p,(f p).length := by
  simp only [load,Nat.one_mul]

theorem eq_nil_of_load_one {f : π → List α} (h : load (fun _ => 1) f=0) (p : π) : f p=[] := by
  rw [load_one,sum_eq_zero_iff] at h
  exact List.eq_nil_of_length_eq_zero (h p (mem_univ p))

theorem load_add_le {w : π → Nat} {g : π → List α} {W : Nat} (h : ∀ p,g p≠[] → w p < W) :
    load w g+load (fun _ => 1) g ≤ W*load (fun _ => 1) g := by
  rw [load_one,load,← sum_add_distrib,mul_sum]
  apply sum_le_sum
  intro p _
  by_cases hp : g p=[]
  · simp [hp]
  · rw [← Nat.succ_mul]
    exact Nat.mul_le_mul_right _ (h p hp)

/-- A list that is divided between a rest and the places has as many elements as those. -/
theorem length_eq_of_count [DecidableEq α] {k l : List α} {g : π → List α}
    (h : ∀ a,l.count a+holders g a=k.count a) : l.length+load (fun _ => 1) g=k.length := by
  have hperm : (l++univ.toList.flatMap g).Perm k := by
    apply List.perm_iff_count.mpr
    intro a
    rw [List.count_append,List.count_flatMap,← h a]
    congr 1
    exact sum_map_toList univ fun p => (g p).count a
  have hlen := hperm.length_eq
  rw [List.length_append,List.length_flatMap] at hlen
  rw [← hlen,load_one,sum_map_toList]

variable [DecidableEq π]

theorem load_update (w : π → Nat) (f : π → List α) (p : π) (l : List α) :
    load w (Function.update f p l)+w p*(f p).length=load w f+w p*l.length := by
  have h := sum_change (f:=fun q => w q*(f q).length)
    (g:=fun q => w q*(Function.update f p l q).length) p
    (fun q hq => by rw [Function.update_of_ne hq])
  rw [Function.update_self] at h
  exact h

theorem load_single (w : π → Nat) (p : π) (l : List α) :
    load w (Function.update (fun _ => []) p l)=w p*l.length := by
  have h := load_update w (fun _ => ([] : List α)) p l
  have hnil : load w (fun _ : π => ([] : List α))=0 := by simp [load]
  rw [hnil,List.length_nil] at h
  omega

end

section
variable {S A B : Type} [DecidableEq B]

def changes (step : S → A → Option S) (f : S → B) : S → List A → Nat
  | _,[] => 0
  | s,a::as =>
    match step s a with
    | none => 0
    | some t => (if f t=f s then 0 else 1)+changes step f t as

section
variable {M E : Type}

/-- Whoever picks the moves can bring the system to P, whatever the answers are: an action is
made of a move that is picked and an answer to it. -/
inductive Forces (step : S → A → Option S) (g : S → A → Prop) (act : M → E → A) (P : S → Prop) :
    S → Prop
  | done {s : S} : P s → Forces step g act P s
  | later {s : S} (m : M) : (∃ e,g s (act m e) ∧ (step s (act m e)).isSome) →
      (∀ e t,g s (act m e) → step s (act m e)=some t → Forces step g act P t) →
      Forces step g act P s

theorem Forces.trans {step : S → A → Option S} {g : S → A → Prop} {act : M → E → A}
    {P Q J : S → Prop} {s : S} (h : Forces step g act P s) (hs : J s)
    (hJ : ∀ {s t a},J s → g s a → step s a=some t → J t)
    (hQ : ∀ {t},J t → P t → Forces step g act Q t) : Forces step g act Q s := by
  induction h with
  | done hp => exact hQ hs hp
  | later m hlive _ ih => exact .later m hlive fun e t hg ht => ih e t hg ht (hJ hs hg ht)

end

/-- Steps that meet the guard keep an invariant, and each change of f costs potential. -/
structure Pays (step : S → A → Option S) (g : S → A → Prop) (I : S → Prop) (Φ : S → Nat)
    (f : S → B) : Prop where
  inv : ∀ {s t a},I s → g s a → step s a=some t → I t
  pay : ∀ {s t a},I s → g s a → step s a=some t → Φ t+(if f t=f s then 0 else 1) ≤ Φ s

namespace Pays

variable {step : S → A → Option S} {g : S → A → Prop} {I : S → Prop} {Φ : S → Nat} {f : S → B}
  {s t : S}

/-- A run cannot change f more often than the potential of its first state says. -/
theorem changes_le (h : Pays step g I Φ f) (hs : I s) (as : List A) (hm : Meets step g s as) :
    changes step f s as ≤ Φ s := by
  induction as generalizing s with
  | nil => exact Nat.zero_le _
  | cons a as ih =>
    rw [changes]
    cases ht : step s a with
    | none => exact Nat.zero_le _
    | some t =>
      obtain ⟨hg,hm'⟩ := hm t ht
      have hrest := ih (h.inv hs hg ht) hm'
      have hpay := h.pay hs hg ht
      change (if f t=f s then 0 else 1)+changes step f t as ≤ Φ s
      omega

/-- If f can be made to change as long as the work is not done, the work can be got done. -/
theorem forces {M E : Type} {act : M → E → A} {Done : S → Prop} (h : Pays step g I Φ f)
    (hadv : ∀ {s},I s → ¬Done s → Forces step g act (fun t => f t≠f s) s) (hs : I s) :
    Forces step g act Done s := by
  induction hn : Φ s using Nat.strong_induction_on generalizing s with
  | _ n ih =>
    by_cases hd : Done s
    · exact .done hd
    · apply (hadv hs hd).trans (J:=fun t => I t ∧ Φ t+(if f t=f s then 0 else 1) ≤ Φ s)
        ⟨hs,by simp⟩
      · rintro u t a ⟨hu,hle⟩ hg ht
        have hpay := h.pay hu hg ht
        refine ⟨h.inv hu hg ht,?_⟩
        by_cases hts : f t=f s
        · rw [if_pos hts]
          omega
        · rw [if_neg hts]
          by_cases hus : f u=f s
          · rw [if_neg (by rw [hus]; exact hts)] at hpay
            omega
          · rw [if_neg hus] at hle
            omega
      · rintro t ⟨ht,hle⟩ hne
        rw [if_neg hne] at hle
        exact ih (Φ t) (by omega) ht rfl

end Pays

end

end Umanet.Framework
