import Mathlib.Data.Nat.ModEq
import Mathlib.Algebra.BigOperators.Group.List.Basic

namespace Umanet.Framework

/-- Which digit of a two-digit word is stored first. -/
inductive Endian
  | little
  | big
  deriving DecidableEq

/-- The word of the digits x and y, in this order in memory. -/
def Endian.word (r : Nat) : Endian → Nat → Nat → Nat
  | .little,x,y => x+r*y
  | .big,x,y => r*x+y

/-- A sequence of digits as words; an odd last digit is followed by a zero. -/
def words (r : Nat) (e : Endian) : List Nat → List Nat
  | [] => []
  | [x] => [e.word r x 0]
  | x::y::l => e.word r x y::words r e l

def ocAdd (M a b : Nat) : Nat := if a+b < M then a+b else a+b-M+1

def ocSum (M : Nat) (l : List Nat) : Nat := l.foldl (ocAdd M) 0

def foldCarry (M n : Nat) : Nat := n/M+n%M

section
variable {r : Nat} {e : Endian}

theorem words_append {l : List Nat} (h : l.length%2=0) (k : List Nat) :
    words r e (l++k)=words r e l++words r e k := by
  induction l using words.induct with
  | case1 => rfl
  | case2 x => simp at h
  | case3 x y l ih =>
    simp only [List.cons_append,words]
    rw [ih (by simp only [List.length_cons] at h; omega)]

theorem word_lt {x y : Nat} (hx : x < r) (hy : y < r) : e.word r x y < r*r := by
  cases e with
  | little =>
    have h := Nat.mul_le_mul_left r (Nat.succ_le_of_lt hy)
    rw [Nat.mul_succ] at h
    simp only [Endian.word]
    omega
  | big =>
    have h := Nat.mul_le_mul_left r (Nat.succ_le_of_lt hx)
    rw [Nat.mul_succ] at h
    simp only [Endian.word]
    omega

theorem words_lt {l : List Nat} (h : ∀ x∈l,x < r) : ∀ w∈words r e l,w < r*r := by
  induction l using words.induct with
  | case1 =>
    intro w hw
    cases hw
  | case2 x =>
    intro w hw
    have hx := h x List.mem_cons_self
    rw [List.mem_singleton.mp hw]
    exact word_lt hx (by omega)
  | case3 x y l ih =>
    intro w hw
    rcases List.mem_cons.mp hw with rfl | hw
    · exact word_lt (h x (by simp)) (h y (by simp))
    · exact ih (fun z hz => h z (by simp [hz])) w hw

theorem word_eq_zero_iff (hr : 0 < r) {x y : Nat} : e.word r x y=0 ↔ x=0 ∧ y=0 := by
  cases e with
  | little =>
    rw [Endian.word,Nat.add_eq_zero_iff,Nat.mul_eq_zero]
    omega
  | big =>
    rw [Endian.word,Nat.add_eq_zero_iff,Nat.mul_eq_zero]
    omega

theorem sum_words_eq_zero_iff (hr : 0 < r) (l : List Nat) :
    (words r e l).sum=0 ↔ ∀ x∈l,x=0 := by
  induction l using words.induct with
  | case1 => simp [words]
  | case2 x => simp [words,word_eq_zero_iff hr]
  | case3 x y l ih =>
    simp only [words,List.sum_cons,Nat.add_eq_zero_iff,word_eq_zero_iff hr,ih,List.forall_mem_cons]
    exact and_assoc

theorem radix_sq_modEq (hr : 0 < r) : r*r ≡ 1 [MOD r*r-1] := by
  have hpos : 1 ≤ r*r := Nat.mul_pos hr hr
  exact ((Nat.modEq_iff_dvd' hpos).mpr (Nat.dvd_refl _)).symm

/-- Swapping the digits of a word is multiplication by the radix, up to end-around carry. -/
theorem sum_words_little (hr : 0 < r) (l : List Nat) :
    (words r .little l).sum ≡ r*(words r .big l).sum [MOD r*r-1] := by
  have hone := radix_sq_modEq hr
  have hword (x y : Nat) : Endian.word r .little x y ≡ r*Endian.word r .big x y [MOD r*r-1] := by
    simp only [Endian.word]
    have h : x+r*y ≡ r*r*x+r*y [MOD r*r-1] := by
      apply Nat.ModEq.add_right
      simpa using (hone.mul_right x).symm
    rw [Nat.mul_add,← Nat.mul_assoc]
    exact h
  induction l using words.induct with
  | case1 => rfl
  | case2 x =>
    simp only [words,List.sum_cons,List.sum_nil,Nat.add_zero]
    exact hword x 0
  | case3 x y l ih =>
    simp only [words,List.sum_cons,Nat.mul_add]
    exact (hword x y).add ih

/-- The order of the digits does not matter to whether a sum is zero up to end-around carry. -/
theorem dvd_sum_words (hr : 0 < r) {l : List Nat} (h : r*r-1 ∣ (words r e l).sum) (e' : Endian) :
    r*r-1 ∣ (words r e' l).sum := by
  have hsum := sum_words_little hr l
  have hone := radix_sq_modEq hr
  have hbig : r*(words r .little l).sum ≡ (words r .big l).sum [MOD r*r-1] := by
    have h₁ := hsum.mul_left r
    rw [← Nat.mul_assoc] at h₁
    have h₂ := hone.mul_right (words r .big l).sum
    rw [Nat.one_mul] at h₂
    exact h₁.trans h₂
  cases e with
  | little =>
    cases e' with
    | little => exact h
    | big => exact (hbig.dvd_iff (Nat.dvd_refl _)).mp (Nat.dvd_mul_left_of_dvd h r)
  | big =>
    cases e' with
    | little => exact (hsum.dvd_iff (Nat.dvd_refl _)).mpr (Nat.dvd_mul_left_of_dvd h r)
    | big => exact h

end

section
variable {M : Nat}

theorem ocAdd_spec (hM : 2 ≤ M) {a b : Nat} (ha : a < M) (hb : b < M) :
    ocAdd M a b < M ∧ ocAdd M a b ≡ a+b [MOD M-1] ∧ (ocAdd M a b=0 ↔ a+b=0) := by
  unfold ocAdd
  split
  · next h => exact ⟨h,rfl,Iff.rfl⟩
  · next h =>
    refine ⟨by omega,?_,by omega⟩
    have hsub : a+b-M+1=a+b-(M-1) := by omega
    rw [hsub]
    exact (Nat.modEq_iff_dvd' (by omega)).mpr ⟨1,by omega⟩

theorem foldl_ocAdd_spec (hM : 2 ≤ M) {l : List Nat} (h : ∀ x∈l,x < M) {a : Nat} (ha : a < M) :
    l.foldl (ocAdd M) a < M ∧ l.foldl (ocAdd M) a ≡ a+l.sum [MOD M-1] ∧
      (l.foldl (ocAdd M) a=0 ↔ a+l.sum=0) := by
  induction l generalizing a with
  | nil => exact ⟨ha,rfl,Iff.rfl⟩
  | cons x l ih =>
    obtain ⟨hlt,hmod,hzero⟩ := ocAdd_spec hM ha (h x List.mem_cons_self)
    obtain ⟨hlt',hmod',hzero'⟩ := ih (fun y hy => h y (List.mem_cons_of_mem _ hy)) hlt
    rw [List.foldl_cons,List.sum_cons]
    refine ⟨hlt',?_,?_⟩
    · rw [← Nat.add_assoc]
      exact hmod'.trans (hmod.add_right _)
    · rw [hzero']
      omega

/-- A sum with end-around carry is all ones if and only if it is a multiple of M-1 and not
zero. -/
theorem ocSum_eq_iff (hM : 2 ≤ M) {l : List Nat} (h : ∀ x∈l,x < M) :
    ocSum M l=M-1 ↔ M-1 ∣ l.sum ∧ l.sum≠0 := by
  obtain ⟨hlt,hmod,hzero⟩ := foldl_ocAdd_spec hM h (show 0 < M by omega)
  rw [Nat.zero_add] at hmod hzero
  change ocSum M l < M at hlt
  change ocSum M l ≡ l.sum [MOD M-1] at hmod
  change ocSum M l=0 ↔ l.sum=0 at hzero
  constructor
  · intro htop
    rw [htop] at hmod hzero
    exact ⟨(hmod.dvd_iff (Nat.dvd_refl _)).mp (Nat.dvd_refl _),by omega⟩
  · rintro ⟨hdvd,hne⟩
    have hd := (hmod.dvd_iff (Nat.dvd_refl _)).mpr hdvd
    have hle := Nat.le_of_dvd (by omega) hd
    omega

theorem foldCarry_modEq (hM : 1 ≤ M) (n : Nat) : foldCarry M n ≡ n [MOD M-1] := by
  have hn := Nat.div_add_mod n M
  have hle : foldCarry M n ≤ n := by
    unfold foldCarry
    have h := Nat.le_mul_of_pos_left (n/M) hM
    omega
  refine ((Nat.modEq_iff_dvd' hle).mpr ⟨n/M,?_⟩)
  rw [Nat.sub_one_mul]
  unfold foldCarry
  omega

theorem foldCarry_eq_zero_iff {n : Nat} : foldCarry M n=0 ↔ n=0 := by
  unfold foldCarry
  constructor
  · intro h
    have hn := Nat.div_add_mod n M
    rw [Nat.eq_zero_of_add_eq_zero_right h,Nat.eq_zero_of_add_eq_zero_left h] at hn
    exact hn.symm
  · rintro rfl
    simp

/-- What fills a sum up is unique, but for the two forms of zero. -/
theorem eq_or_of_dvd_add {S x y : Nat} (hx : x < M) (hy : y < M) (h : M-1 ∣ S+x)
    (h' : M-1 ∣ S+y) : x=y ∨ x=0 ∧ y=M-1 ∨ x=M-1 ∧ y=0 := by
  rcases Nat.le_total x y with hle | hle
  · have hd : M-1 ∣ y-x := by
      have hsub := Nat.dvd_sub h' h
      rwa [Nat.add_sub_add_left] at hsub
    rcases Nat.eq_zero_or_pos (y-x) with hz | hpos
    · exact .inl (by omega)
    · have hmin := Nat.le_of_dvd hpos hd
      exact .inr (.inl (by omega))
  · have hd : M-1 ∣ x-y := by
      have hsub := Nat.dvd_sub h h'
      rwa [Nat.add_sub_add_left] at hsub
    rcases Nat.eq_zero_or_pos (x-y) with hz | hpos
    · exact .inl (by omega)
    · have hmin := Nat.le_of_dvd hpos hd
      exact .inr (.inr (by omega))

theorem dvd_add_complement {S R : Nat} (hle : R ≤ M-1) (h : R ≡ S [MOD M-1]) :
    M-1 ∣ S+(M-1-R) := by
  have hsum : R+(M-1-R)=M-1 := by omega
  have hmod := h.add_right (M-1-R)
  rw [hsum] at hmod
  exact (hmod.dvd_iff (Nat.dvd_refl _)).mp (Nat.dvd_refl _)

end

end Umanet.Framework
