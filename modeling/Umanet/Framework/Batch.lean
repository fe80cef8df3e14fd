import Mathlib.Data.List.Basic
import Mathlib.Data.List.Nodup

namespace Umanet.Framework

variable {α β : Type}

/-- Write behind the used part of an array of `cap` slots; none is a write past its end. -/
def push (cap : Nat) (l : List α) (x : α) : Option (List α) :=
  if l.length < cap then some (l++[x]) else none

theorem push_of_lt {cap : Nat} {l : List α} {x : α} (h : l.length < cap) :
    push cap l x=some (l++[x]) := if_pos h

theorem push_of_le {cap : Nat} {l : List α} {x : α} (h : cap ≤ l.length) : push cap l x=none :=
  if_neg (Nat.not_lt.mpr h)

/-- The tags of the elements a predicate selects, in the order of the batch. -/
def bucket (p : α → Bool) (f : α → β) (l : List α) : List β := (l.filter p).map f

theorem bucket_append (p : α → Bool) (f : α → β) (l k : List α) :
    bucket p f (l++k)=bucket p f l++bucket p f k := by
  simp [bucket]

theorem bucket_cons (p : α → Bool) (f : α → β) (x : α) (l : List α) :
    bucket p f (x::l)=if p x then f x::bucket p f l else bucket p f l := by
  by_cases h : p x <;> simp [bucket,h]

theorem bucket_snoc (p : α → Bool) (f : α → β) (l : List α) (x : α) :
    bucket p f (l++[x])=if p x then bucket p f l++[f x] else bucket p f l := by
  by_cases h : p x <;> simp [bucket,List.filter_append,h]

/-- One more element goes to the bucket it belongs to, of those that a labelling tells apart. -/
theorem bucket_update {ι ε : Type} [DecidableEq ι] [DecidableEq ε] {g : ι → ε}
    (hg : Function.Injective g) {label : α → ε} (f : α → β) (l : List α) {x : α} {i : ι}
    (hx : label x=g i) :
    Function.update (fun j => bucket (fun a => decide (label a=g j)) f l) i
      (bucket (fun a => decide (label a=g i)) f l++[f x])=
        fun j => bucket (fun a => decide (label a=g j)) f (l++[x]) := by
  funext j
  rw [bucket_snoc,hx]
  by_cases hj : j=i
  · subst hj
    simp
  · have hne : ¬(g i=g j) := fun e => hj (hg e).symm
    simp [hj,hne]

theorem take_snoc (l : List α) (x : α) (k : Nat) :
    (l++[x]).take k=if (l.take k).length < k then l.take k++[x] else l.take k := by
  rw [List.take_append,List.length_take]
  by_cases h : l.length < k
  · obtain ⟨m,hm⟩ : ∃ m,k-l.length=m+1 := ⟨k-l.length-1,by omega⟩
    rw [if_pos (by omega),hm,List.take_succ_cons,List.take_nil]
  · rw [if_neg (by omega),Nat.sub_eq_zero_of_le (by omega),List.take_zero,List.append_nil]

theorem bucket_length_le (p : α → Bool) (f : α → β) (l : List α) :
    (bucket p f l).length ≤ l.length := by
  simpa [bucket] using List.length_filter_le p l

theorem bucket_nodup {p : α → Bool} {f : α → β} {l : List α} (h : (l.map f).Nodup) :
    (bucket p f l).Nodup :=
  (List.Sublist.map f List.filter_sublist).nodup h

theorem mem_bucket {p : α → Bool} {f : α → β} {l : List α} (h : (l.map f).Nodup) {j : Nat}
    (hj : j < l.length) : f l[j]∈bucket p f l ↔ p l[j]=true := by
  constructor
  · intro hm
    obtain ⟨x,hx,he⟩ := List.mem_map.mp hm
    obtain ⟨hxl,hp⟩ := List.mem_filter.mp hx
    rwa [← List.inj_on_of_nodup_map h hxl (List.getElem_mem hj) he]
  · intro hp
    exact List.mem_map.mpr ⟨l[j],List.mem_filter.mpr ⟨List.getElem_mem hj,hp⟩,rfl⟩

/-- A selected element is among the first k of its bucket when fewer than k of the
elements before it are selected. -/
theorem mem_bucket_take {p : α → Bool} {f : α → β} {l : List α} (h : (l.map f).Nodup) {j k : Nat}
    (hj : j < l.length) :
    f l[j]∈(bucket p f l).take k ↔ p l[j]=true ∧ (l.take j).countP p < k := by
  have hsplit : l=l.take j++l[j]::l.drop (j+1) := by simp
  by_cases hp : p l[j]=true
  · have hb : bucket p f l=bucket p f (l.take j)++f l[j]::bucket p f (l.drop (j+1)) := by
      conv_lhs => rw [hsplit]
      rw [bucket_append,bucket_cons,if_pos hp]
    have hn := bucket_nodup (p:=p) h
    rw [hb] at hn ⊢
    have hlen : (bucket p f (l.take j)).length=(l.take j).countP p := by
      simp [bucket,List.countP_eq_length_filter]
    rw [List.nodup_append] at hn
    have hfront : f l[j]∉bucket p f (l.take j) := fun hm =>
      hn.2.2 _ hm _ List.mem_cons_self rfl
    rw [List.take_append,List.mem_append,hlen]
    constructor
    · rintro (hm | hm)
      · exact absurd (List.mem_of_mem_take hm) hfront
      · refine ⟨hp,?_⟩
        by_contra hk
        rw [Nat.sub_eq_zero_of_le (by omega)] at hm
        simp at hm
    · rintro ⟨-,hk⟩
      right
      obtain ⟨m,hm⟩ : ∃ m,k-(l.take j).countP p=m+1 := ⟨k-(l.take j).countP p-1,by omega⟩
      simp [hm]
  · constructor
    · intro hm
      exact absurd ((mem_bucket h hj).mp (List.mem_of_mem_take hm)) hp
    · intro hk
      exact absurd hk.1 hp

/-- Slots written by `arr[cnt++]` in a loop that starts with the counter at c and writes for
the elements a predicate selects. -/
def slotsWritten (p : α → Bool) : Nat → List α → List Nat
  | _,[] => []
  | c,x::xs => if p x then c::slotsWritten p (c+1) xs else slotsWritten p c xs

theorem mem_slotsWritten (p : α → Bool) (l : List α) (c i : Nat) :
    i∈slotsWritten p c l ↔ c ≤ i ∧ i < c+l.countP p := by
  induction l generalizing c with
  | nil =>
    simp only [slotsWritten,List.not_mem_nil,List.countP_nil,Nat.add_zero,false_iff]
    omega
  | cons x xs ih =>
    rw [slotsWritten,List.countP_cons]
    split
    · rw [List.mem_cons,ih]
      omega
    · rw [ih,Nat.add_zero]

end Umanet.Framework
