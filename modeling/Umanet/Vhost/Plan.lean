import Umanet.Vhost.State
import Mathlib.Data.List.Basic

namespace Umanet

/-- `struct vhost_plan`: `num` is a uint16, `vids` a fixed array. -/
structure VhostPlan where
  num : Nat
  vids : Fin maxVhosts → Vid

namespace VhostPlan

/-- A zeroed plan, as rte_zmalloc returns it. -/
def zero : VhostPlan := ⟨0,fun _ => 0⟩

/-- The slots a loop over `j < num` reads. A `num` beyond the array is cut at
its last slot: what lies behind is not part of the plan. -/
def entries (p : VhostPlan) : List Vid := ((List.finRange maxVhosts).take p.num).map p.vids

/-- `vids[num] = v; num++` -/
def append (p : VhostPlan) (v : Vid) : VhostPlan :=
  ⟨p.num+1,fun i => if i.val=p.num then v else p.vids i⟩

/-- The slot vhost_*_plan_remove deletes: the first one that holds v, and slot 0
when none does. -/
def victim (p : VhostPlan) (v : Vid) : Nat := (p.entries.findIdx? (·==v)).getD 0

/-- The copy vhost_*_plan_remove publishes: everything behind the victim moves
one slot down and `num` drops by one as a uint16. -/
def remove (p : VhostPlan) (v : Vid) : VhostPlan :=
  ⟨(p.num+(2^16-1))%2^16,fun i =>
    if h : p.victim v ≤ i.val ∧ i.val+1 < p.num ∧ i.val+1 < maxVhosts then p.vids ⟨i.val+1,h.2.2⟩
    else p.vids i⟩

theorem entries_length (p : VhostPlan) (h : p.num ≤ maxVhosts) : p.entries.length=p.num := by
  simp [entries,List.length_take,Nat.min_eq_left h]

theorem entries_getElem (p : VhostPlan) (i : Nat) (h : i < p.entries.length) :
    p.entries[i]=p.vids ⟨i,by simp [entries] at h; omega⟩ := by
  simp [entries]

@[simp] theorem zero_entries : zero.entries=[] := by simp [entries,zero]

@[simp] theorem zero_num : zero.num=0 := rfl

@[simp] theorem append_num (p : VhostPlan) (v : Vid) : (p.append v).num=p.num+1 := rfl

theorem append_entries (p : VhostPlan) (v : Vid) (h : p.num < maxVhosts) :
    (p.append v).entries=p.entries++[v] := by
  have hl := entries_length p h.le
  have hl' := entries_length (p.append v) (by rw [append_num]; omega)
  apply List.ext_getElem
  · simp [hl,hl']
  · intro i h1 h2
    rw [entries_getElem _ _ h1]
    have hi : i < p.num+1 := by simpa [hl'] using h1
    by_cases he : i=p.num
    · subst he
      simp [append,List.getElem_append_right,hl]
    · have hlt : i < p.entries.length := by omega
      rw [List.getElem_append_left hlt,entries_getElem _ _ hlt]
      simp [append,he]

theorem remove_num (p : VhostPlan) (v : Vid) (h0 : 0 < p.num) (h : p.num ≤ maxVhosts) :
    (p.remove v).num=p.num-1 := by
  simp only [remove,maxVhosts] at *
  omega

theorem remove_num_zero (p : VhostPlan) (v : Vid) (h : p.num=0) : (p.remove v).num=65535 := by
  simp [remove,h]

theorem victim_lt (p : VhostPlan) (v : Vid) (h0 : 0 < p.num) (h : p.num ≤ maxVhosts) :
    p.victim v < p.num := by
  unfold victim
  cases hf : p.entries.findIdx? (·==v) with
  | none => simpa using h0
  | some i =>
    have hi := (List.findIdx?_eq_some_iff_findIdx_eq.mp hf).1
    simpa [entries_length p h] using hi

theorem remove_entries (p : VhostPlan) (v : Vid) (h0 : 0 < p.num) (h : p.num ≤ maxVhosts) :
    (p.remove v).entries=p.entries.eraseIdx (p.victim v) := by
  have hl := entries_length p h
  have hn := remove_num p v h0 h
  have hl' := entries_length (p.remove v) (by omega)
  have hv := victim_lt p v h0 h
  apply List.ext_getElem
  · rw [hl',List.length_eraseIdx_of_lt (by omega)]
    omega
  · intro i h1 h2
    rw [entries_getElem _ _ h1,List.getElem_eraseIdx]
    have hi : i < p.num-1 := by omega
    by_cases hc : i < p.victim v
    · rw [dif_pos hc,entries_getElem _ _ (by omega)]
      have hn : ¬(p.victim v ≤ i ∧ i+1 < p.num ∧ i+1 < maxVhosts) := by omega
      simp only [remove,dif_neg hn]
    · rw [dif_neg hc,entries_getElem _ _ (by omega)]
      have hn : p.victim v ≤ i ∧ i+1 < p.num ∧ i+1 < maxVhosts := by omega
      simp only [remove,dif_pos hn]

/-- With v in the plan its first occurrence goes and nothing else. -/
theorem remove_entries_mem (p : VhostPlan) (v : Vid) (h : p.num ≤ maxVhosts)
    (hv : v∈p.entries) : (p.remove v).entries=p.entries.erase v := by
  have h0 : 0 < p.num := by
    have hp := List.length_pos_of_mem hv
    rwa [entries_length p h] at hp
  have hi : p.victim v=p.entries.idxOf v := by
    have he : p.entries.findIdx? (·==v)=some (p.entries.idxOf v) := by
      rw [List.findIdx?_eq_some_iff_findIdx_eq]
      exact ⟨List.idxOf_lt_length_iff.mpr hv,rfl⟩
    simp [victim,he]
  rw [remove_entries p v h0 h,hi,← List.erase_eq_eraseIdx_of_idxOf rfl]

theorem remove_entries_notMem (p : VhostPlan) (v : Vid) (h0 : 0 < p.num) (h : p.num ≤ maxVhosts)
    (hv : v∉p.entries) : (p.remove v).entries=p.entries.tail := by
  have hi : p.victim v=0 := by
    have he : p.entries.findIdx? (·==v)=none := by
      rw [List.findIdx?_eq_none_iff]
      intro x hx
      have hne : x≠v := fun e => hv (e ▸ hx)
      simpa using hne
    simp [victim,he]
  rw [remove_entries p v h0 h,hi,List.eraseIdx_zero]

end VhostPlan

/-- Removal of v that hits only its target: all other vids keep multiplicity and
order, and `num` drops by the occurrences of v that went. -/
structure RemovesOnly (v : Vid) (P Q : VhostPlan) : Prop where
  others : Q.entries.filter (·≠v)=P.entries.filter (·≠v)
  count_le : Q.entries.count v ≤ P.entries.count v
  num : Q.num+(P.entries.count v-Q.entries.count v)=P.num
  bound : Q.num ≤ maxVhosts

/-- The published copy is a removal of v exactly when v is still in the plan it
was made from. -/
theorem VhostPlan.remove_removesOnly (p : VhostPlan) (v : Vid) (h : p.num ≤ maxVhosts) :
    RemovesOnly v p (p.remove v) ↔ v∈p.entries := by
  constructor
  · intro hr
    by_contra hv
    rcases Nat.eq_zero_or_pos p.num with h0 | h0
    · have hb := hr.bound
      rw [remove_num_zero p v h0] at hb
      exact absurd hb (by decide)
    · have ht := remove_entries_notMem p v h0 h hv
      have hk (l : List Vid) (hl : ∀ u∈l,u∈p.entries) : l.filter (·≠v)=l := by
        rw [List.filter_eq_self]
        intro u hu
        have hne : u≠v := fun e => hv (e ▸ hl u hu)
        simpa using hne
      have he := hr.others
      rw [ht,hk _ (fun u hu => List.mem_of_mem_tail hu),hk _ (fun u hu => hu)] at he
      have hl := congrArg List.length he
      rw [List.length_tail,entries_length p h] at hl
      omega
  · intro hv
    have h0 : 0 < p.num := by
      have hp := List.length_pos_of_mem hv
      rwa [entries_length p h] at hp
    have hn := remove_num p v h0 h
    have hc := List.count_pos_iff.mpr hv
    have he := remove_entries_mem p v h hv
    have hq : (p.remove v).entries.count v=p.entries.count v-1 := by
      rw [he,List.count_erase_self]
    refine ⟨?_,by omega,by omega,by omega⟩
    rw [he,← List.erase_filter,List.erase_of_not_mem (by simp)]

end Umanet
