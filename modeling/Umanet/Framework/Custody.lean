import Mathlib.Algebra.BigOperators.Group.Finset.Piecewise
import Mathlib.Algebra.BigOperators.Group.Finset.Sigma
import Mathlib.Data.Fintype.Card
import Mathlib.Data.List.Basic
import Mathlib.Logic.Function.Basic

namespace Umanet.Framework

variable {π α : Type} [DecidableEq π]

/-- The first n elements of one queue go to the end of another. -/
def move (f : π → List α) (p q : π) (n : Nat) : π → List α :=
  let g := Function.update f p ((f p).drop n)
  Function.update g q (g q++(f p).take n)

/-- A given element goes from one queue to the end of another, if it is there. -/
def hand [DecidableEq α] (f : π → List α) (p q : π) (x : α) : Option (π → List α) :=
  if x∈f p then
    let g := Function.update f p ((f p).erase x)
    some (Function.update g q (g q++[x]))
  else none

theorem mem_update {f : π → List α} {p r : π} {l : List α} {x : α}
    (h : x∈Function.update f p l r) : x∈l ∨ x∈f r := by
  by_cases hr : r=p
  · subst hr
    rw [Function.update_self] at h
    exact Or.inl h
  · rw [Function.update_of_ne hr] at h
    exact Or.inr h

theorem mem_move {f : π → List α} {p q r : π} {n : Nat} {x : α} (h : x∈move f p q n r) :
    ∃ r',x∈f r' := by
  have hg : ∀ {i},x∈Function.update f p ((f p).drop n) i → ∃ r',x∈f r' := by
    intro i hi
    rcases mem_update hi with hi | hi
    · exact ⟨p,List.mem_of_mem_drop hi⟩
    · exact ⟨i,hi⟩
  rcases mem_update h with h | h
  · rcases List.mem_append.mp h with h | h
    · exact hg h
    · exact ⟨p,List.mem_of_mem_take h⟩
  · exact hg h

theorem mem_hand [DecidableEq α] {f g : π → List α} {p q r : π} {x y : α}
    (h : hand f p q x=some g) (hy : y∈g r) : ∃ r',y∈f r' := by
  unfold hand at h
  split at h
  · rename_i hx
    have h' := Option.some.inj h
    subst h'
    have hg : ∀ {i},y∈Function.update f p ((f p).erase x) i → ∃ r',y∈f r' := by
      intro i hi
      rcases mem_update hi with hi | hi
      · exact ⟨p,List.mem_of_mem_erase hi⟩
      · exact ⟨i,hi⟩
    rcases mem_update hy with hy | hy
    · rcases List.mem_append.mp hy with hy | hy
      · exact hg hy
      · exact ⟨p,List.mem_singleton.mp hy ▸ hx⟩
    · exact hg hy
  · simp at h

/-- No element is in two of the places, or twice in one. -/
structure Apart (f : π → List α) : Prop where
  nodup : ∀ p,(f p).Nodup
  one : ∀ {p q x},x∈f p → x∈f q → p=q

omit [DecidableEq π] in
/-- Some elements go from one place to another, the rest stays where it is. -/
theorem Apart.pass {f g : π → List α} {p q : π} (h : Apart f) (part : List α) (hpq : p≠q)
    (hp : (g p++part).Perm (f p)) (hq : (g q).Perm (f q++part))
    (hr : ∀ r,r≠p → r≠q → g r=f r) : Apart g := by
  have hsplit := List.nodup_append.mp (hp.nodup_iff.mpr (h.nodup p))
  have hpart : ∀ {x},x∈part → x∈f p := fun hx => hp.subset (List.mem_append_right _ hx)
  have hrest : ∀ {x},x∈g p → x∈f p ∧ x∉part := fun hx =>
    ⟨hp.subset (List.mem_append_left _ hx),fun hx' => hsplit.2.2 _ hx _ hx' rfl⟩
  have hgot : ∀ {x},x∈g q → x∈f q ∨ x∈part := fun hx => List.mem_append.mp (hq.subset hx)
  have hold : ∀ {r x},x∈g r → x∈part ∧ r=q ∨ x∈f r ∧ x∉part := by
    intro r x hx
    by_cases hrp : r=p
    · subst hrp
      exact Or.inr (hrest hx)
    · by_cases hrq : r=q
      · subst hrq
        rcases hgot hx with hx | hx
        · exact Or.inr ⟨hx,fun hx' => hpq (h.one (hpart hx') hx)⟩
        · exact Or.inl ⟨hx,rfl⟩
      · rw [hr r hrp hrq] at hx
        exact Or.inr ⟨hx,fun hx' => hrp (h.one hx (hpart hx'))⟩
  refine ⟨fun r => ?_,fun {r r' x} hx hx' => ?_⟩
  · by_cases hrp : r=p
    · subst hrp
      exact hsplit.1
    · by_cases hrq : r=q
      · subst hrq
        rw [hq.nodup_iff,List.nodup_append]
        refine ⟨h.nodup r,hsplit.2.1,fun a ha b hb hab => ?_⟩
        exact hpq (h.one (hpart (hab ▸ hb)) ha)
      · rw [hr r hrp hrq]
        exact h.nodup r
  · rcases hold hx with ⟨hm,rfl⟩ | ⟨hf,hm⟩
    · rcases hold hx' with ⟨-,rfl⟩ | ⟨-,hn⟩
      · rfl
      · exact absurd hm hn
    · rcases hold hx' with ⟨hn,-⟩ | ⟨hf',-⟩
      · exact absurd hn hm
      · exact h.one hf hf'

section
open Finset

variable {ι : Type} [Fintype ι] [DecidableEq ι]

theorem sum_count_univ (l : List ι) : ∑ a,l.count a=l.length := by
  have h := Multiset.sum_count_eq_card (s:=univ) (m:=(l : Multiset ι)) (fun a _ => mem_univ a)
  simpa using h

/-- Queues that hold each selected element once, at its home, and no other element, have as
many entries as there are selected elements. -/
theorem sum_length_of_once (n : Nat) (f : Nat → List ι) (sel : ι → Bool) (home : ι → Nat)
    (hhome : ∀ a,sel a=true → home a < n)
    (honce : ∀ a,∀ i < n,(f i).count a=if sel a=true ∧ home a=i then 1 else 0) :
    ∑ i∈range n,(f i).length=(univ.filter fun a => sel a=true).card := by
  have hcol : ∀ a,∑ i∈range n,(f i).count a=if sel a=true then 1 else 0 := by
    intro a
    rw [sum_congr rfl fun i hi => honce a i (mem_range.mp hi)]
    by_cases ha : sel a=true
    · simp [ha,hhome a ha]
    · simp [ha]
  calc
    ∑ i∈range n,(f i).length=∑ i∈range n,∑ a,(f i).count a :=
      sum_congr rfl fun i _ => (sum_count_univ (f i)).symm
    _=∑ a,∑ i∈range n,(f i).count a := sum_comm
    _=∑ a,if sel a=true then 1 else 0 := sum_congr rfl fun a _ => hcol a
    _=(univ.filter fun a => sel a=true).card := (card_filter _ _).symm

/-- Places that together hold each element once have as many entries as there are elements. -/
theorem length_of_once {κ : Type} [Fintype κ] (l k : List ι) (f : κ → List ι)
    (honce : ∀ a,l.count a+k.count a+∑ c,(f c).count a=1) :
    l.length+k.length+∑ c,(f c).length=Fintype.card ι := by
  have hf : ∑ a,∑ c,(f c).count a=∑ c,(f c).length := by
    rw [sum_comm]
    exact sum_congr rfl fun c _ => sum_count_univ (f c)
  calc
    l.length+k.length+∑ c,(f c).length=∑ a,(l.count a+k.count a+∑ c,(f c).count a) := by
      rw [sum_add_distrib,sum_add_distrib,sum_count_univ,sum_count_univ,hf]
    _=∑ _a : ι,1 := sum_congr rfl fun a _ => honce a
    _=Fintype.card ι := (card_eq_sum_ones univ).symm

theorem sum_change {κ : Type} [Fintype κ] [DecidableEq κ] {f g : κ → Nat} (c : κ)
    (h : ∀ d≠c,g d=f d) : ∑ d,g d+f c=∑ d,f d+g c := by
  have hrest : ∑ d∈univ.erase c,g d=∑ d∈univ.erase c,f d :=
    sum_congr rfl fun d hd => h d (ne_of_mem_erase hd)
  have hg := add_sum_erase univ g (mem_univ c)
  have hf := add_sum_erase univ f (mem_univ c)
  omega

end

end Umanet.Framework
