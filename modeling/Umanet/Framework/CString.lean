import Mathlib.Data.List.Forall2
import Mathlib.Algebra.GroupWithZero.Nat

namespace Umanet.Framework

/-- A string of C up to its terminator. -/
structure CString where
  chars : List Char
  noNul : '\x00'∉chars

/-- The string before its n-th character, once a terminator is stored there. -/
def CString.take (s : CString) (n : Nat) : CString :=
  ⟨s.chars.take n,fun h => s.noNul (List.mem_of_mem_take h)⟩

def CString.drop (s : CString) (n : Nat) : CString :=
  ⟨s.chars.drop n,fun h => s.noNul (List.mem_of_mem_drop h)⟩

/-- `strrchr`: the index of the last c. -/
def strrchr (c : Char) : List Char → Option Nat
  | [] => none
  | e::s =>
    match strrchr c s with
    | some k => some (k+1)
    | none => if e=c then some 0 else none

/-- `isspace` of the C locale -/
def isSpace (c : Char) : Bool :=
  decide (c∈[' ','\t','\n','\x0b','\x0c','\r'])

def hexVal (c : Char) : Option Nat :=
  if '0' ≤ c ∧ c ≤ '9' then some (c.toNat-48)
  else if 'a' ≤ c ∧ c ≤ 'f' then some (c.toNat-87)
  else if 'A' ≤ c ∧ c ≤ 'F' then some (c.toNat-55)
  else none

def digit (b : Nat) (c : Char) : Option Nat := (hexVal c).filter fun d => decide (d < b)

/-- The digits a string begins with, and what follows them. -/
def digits (b : Nat) : List Char → List Nat × List Char
  | [] => ([],[])
  | c::s =>
    match digit b c with
    | some d => (d::(digits b s).1,(digits b s).2)
    | none => ([],c::s)

def value (b : Nat) (ds : List Nat) : Nat := ds.foldl (fun n d => b*n+d) 0

def Spells (b : Nat) (s : List Char) (ds : List Nat) : Prop :=
  List.Forall₂ (fun c d => digit b c=some d) s ds

def NoDigit (b : Nat) (s : List Char) : Prop := ∀ c t,s=c::t → digit b c=none

/-- An optional sign, and whether it is a minus. -/
inductive Sign : List Char → Bool → Prop
  | none : Sign [] false
  | plus : Sign ['+'] false
  | minus : Sign ['-'] true

def takeSign : List Char → Bool × List Char
  | [] => (false,[])
  | c::s => if c = '-' then (true,s) else if c = '+' then (false,s) else (false,c::s)

/-- An unsigned long of 64 bits: too large a number becomes the largest, a minus negates. -/
def ulong (neg : Bool) (n : Nat) : Nat :=
  if 2^64 ≤ n then 2^64-1 else if neg then (2^64-n)%2^64 else n

/-- `strtoul` to base 10: the value, and what `end` points to. Without a digit that is the whole
string. -/
def strtoul (s : List Char) : Nat × List Char :=
  let r := takeSign (s.dropWhile isSpace)
  let d := digits 10 r.2
  if d.1=[] then (0,s) else (ulong r.1 (value 10 d.1),d.2)

/-- The integer in front of a string, after blanks and a sign. -/
def signedValue (s : List Char) : Int :=
  let r := takeSign (s.dropWhile isSpace)
  let n := value 10 (digits 10 r.2).1
  if r.1 then -n else n

/-- Blanks, an optional sign, and digits to base 10. -/
structure Numeral (s blanks sign : List Char) (neg : Bool) (ds : List Nat) (rest : List Char) :
    Prop where
  split : ∃ body,s=blanks++(sign++(body++rest)) ∧ Spells 10 body ds
  blank : ∀ c∈blanks,isSpace c=true
  sgn : Sign sign neg
  digits_ne : ds≠[]
  stop : NoDigit 10 rest

section
variable {b : Nat} {c : Char} {s t : List Char} {d : Nat} {ds : List Nat}

theorem strrchr_of_not_mem (h : c∉s) : strrchr c s=none := by
  induction s with
  | nil => rfl
  | cons e s ih =>
    rw [List.mem_cons,not_or] at h
    rw [strrchr,ih h.2]
    exact if_neg (Ne.symm h.1)

theorem strrchr_append (s : List Char) (h : c∉t) : strrchr c (s++c::t)=some s.length := by
  induction s with
  | nil =>
    rw [List.nil_append,strrchr,strrchr_of_not_mem h]
    exact if_pos rfl
  | cons e s ih =>
    rw [List.cons_append,strrchr,ih]
    rfl

theorem digit_isSome (h : digit b c=some d) : hexVal c=some d := by
  unfold digit at h
  rw [Option.filter_eq_some_iff] at h
  exact h.1

theorem digit_lt (h : digit b c=some d) : d < b := by
  unfold digit at h
  rw [Option.filter_eq_some_iff] at h
  exact of_decide_eq_true h.2

theorem hexVal_space (h : isSpace c=true) : hexVal c=none := by
  simp only [isSpace,decide_eq_true_eq,List.mem_cons,List.not_mem_nil,or_false] at h
  rcases h with rfl | rfl | rfl | rfl | rfl | rfl <;> decide

theorem not_isSpace_of_digit (h : digit b c=some d) : isSpace c=false := by
  cases hs : isSpace c with
  | false => rfl
  | true =>
    have hv := digit_isSome h
    rw [hexVal_space hs] at hv
    cases hv

theorem spells_unique (h : Spells b s ds) {es : List Nat} (h' : Spells b s es) : ds=es := by
  induction h generalizing es with
  | nil =>
    cases h'
    rfl
  | cons hd _ ih =>
    cases h' with
    | cons he ht =>
      have hde := Option.some.inj (hd.symm.trans he)
      subst hde
      rw [ih ht]

theorem digits_append (h : Spells b s ds) (ht : NoDigit b t) : digits b (s++t)=(ds,t) := by
  induction h with
  | nil =>
    cases t with
    | nil => rfl
    | cons c t => simp only [List.nil_append,digits,ht c t rfl]
  | cons hd _ ih => simp only [List.cons_append,digits,hd,ih]

theorem digits_spec (b : Nat) (s : List Char) :
    ∃ body,s=body++(digits b s).2 ∧ Spells b body (digits b s).1 ∧ NoDigit b (digits b s).2 := by
  induction s with
  | nil => exact ⟨[],rfl,.nil,nofun⟩
  | cons c s ih =>
    obtain ⟨body,hs,hspell,hstop⟩ := ih
    cases hd : digit b c with
    | none =>
      refine ⟨[],?_,?_,?_⟩
      · simp only [digits,hd]
        rfl
      · simp only [digits,hd]
        exact .nil
      · simp only [digits,hd]
        rintro e t ⟨⟩
        exact hd
    | some d =>
      refine ⟨c::body,?_,?_,?_⟩
      · simp only [digits,hd]
        exact congrArg (List.cons c) hs
      · simp only [digits,hd]
        exact .cons hd hspell
      · simp only [digits,hd]
        exact hstop

theorem dropWhile_blanks {blanks : List Char} (h : ∀ c∈blanks,isSpace c=true)
    (ht : ∀ c u,t=c::u → isSpace c=false) : (blanks++t).dropWhile isSpace=t := by
  induction blanks with
  | nil =>
    cases t with
    | nil => rfl
    | cons c u =>
      rw [List.nil_append,List.dropWhile_cons_of_neg]
      rw [ht c u rfl]
      decide
  | cons c blanks ih =>
    rw [List.cons_append,List.dropWhile_cons_of_pos (h c List.mem_cons_self)]
    exact ih fun e he => h e (List.mem_cons_of_mem _ he)

theorem blanks_dropWhile (s : List Char) : ∃ blanks,s=blanks++s.dropWhile isSpace ∧
    (∀ c∈blanks,isSpace c=true) ∧ ∀ c u,s.dropWhile isSpace=c::u → isSpace c=false := by
  refine ⟨s.takeWhile isSpace,List.takeWhile_append_dropWhile.symm,?_,?_⟩
  · intro c hc
    exact List.all_eq_true.mp List.all_takeWhile c hc
  · intro c u hcu
    have hhead := List.head?_dropWhile_not isSpace s
    rw [hcu] at hhead
    simpa using hhead

theorem takeSign_spec (s : List Char) :
    ∃ sign,s=sign++(takeSign s).2 ∧ Sign sign (takeSign s).1 := by
  cases s with
  | nil => exact ⟨[],rfl,.none⟩
  | cons c s =>
    by_cases hm : c = '-'
    · subst hm
      exact ⟨['-'],rfl,.minus⟩
    · by_cases hp : c = '+'
      · subst hp
        exact ⟨['+'],rfl,.plus⟩
      · refine ⟨[],?_,?_⟩
        · simp [takeSign,hm,hp]
        · simp only [takeSign,hm,hp,if_false]
          exact .none

theorem takeSign_append {sign : List Char} {neg : Bool} (h : Sign sign neg)
    (hc : digit b c=some d) : takeSign (sign++c::t)=(neg,c::t) := by
  cases h with
  | plus => rfl
  | minus => rfl
  | none =>
    have hv := digit_isSome hc
    have hm : c≠ '-' := by
      rintro rfl
      cases hv
    have hp : c≠ '+' := by
      rintro rfl
      cases hv
    simp [takeSign,hm,hp]

theorem sign_head {sign : List Char} {neg : Bool} (h : Sign sign neg) (hc : digit b c=some d) :
    ∀ e u,sign++c::t=e::u → isSpace e=false := by
  cases h with
  | plus =>
    rintro e u ⟨⟩
    rfl
  | minus =>
    rintro e u ⟨⟩
    rfl
  | none =>
    rintro e u ⟨⟩
    exact not_isSpace_of_digit hc

section
variable {blanks sign rest : List Char} {neg : Bool}

theorem Numeral.parts (h : Numeral s blanks sign neg ds rest) :
    ∃ t,takeSign (s.dropWhile isSpace)=(neg,t) ∧ digits 10 t=(ds,rest) := by
  obtain ⟨⟨body,rfl,hspell⟩,hblank,hsign,hne,hstop⟩ := h
  cases hspell with
  | nil => exact absurd rfl hne
  | @cons c d body ds hc hspell =>
    refine ⟨c::(body++rest),?_,digits_append (s:=c::body) (.cons hc hspell) hstop⟩
    rw [List.cons_append,dropWhile_blanks hblank (sign_head hsign hc),takeSign_append hsign hc]

theorem strtoul_numeral (h : Numeral s blanks sign neg ds rest) :
    strtoul s=(ulong neg (value 10 ds),rest) := by
  obtain ⟨t,hsign,hdigits⟩ := h.parts
  unfold strtoul
  simp only [hsign,hdigits]
  exact if_neg h.digits_ne

theorem signedValue_numeral (h : Numeral s blanks sign neg ds rest) :
    signedValue s=if neg then -(value 10 ds : Int) else value 10 ds := by
  obtain ⟨t,hsign,hdigits⟩ := h.parts
  unfold signedValue
  simp only [hsign,hdigits]

theorem strtoul_cases (s : List Char) : strtoul s=(0,s) ∨
    ∃ blanks sign neg ds rest,Numeral s blanks sign neg ds rest := by
  obtain ⟨blanks,hs,hblank,-⟩ := blanks_dropWhile s
  obtain ⟨sign,ht,hsign⟩ := takeSign_spec (s.dropWhile isSpace)
  obtain ⟨body,hu,hspell,hstop⟩ := digits_spec 10 (takeSign (s.dropWhile isSpace)).2
  by_cases hne : (digits 10 (takeSign (s.dropWhile isSpace)).2).1=[]
  · exact .inl (by simp [strtoul,hne])
  · refine .inr ⟨blanks,sign,_,_,_,⟨body,?_,hspell⟩,hblank,hsign,hne,hstop⟩
    rw [← hu,← ht]
    exact hs

/-- A string that is not empty is read to its end if and only if it is a numeral. -/
theorem strtoul_all_iff : s≠[] ∧ (strtoul s).2=[] ↔
    ∃ blanks sign neg ds,Numeral s blanks sign neg ds [] := by
  constructor
  · rintro ⟨hne,hend⟩
    rcases strtoul_cases s with hnone | ⟨blanks,sign,neg,ds,rest,h⟩
    · rw [hnone] at hend
      exact absurd hend hne
    · rw [strtoul_numeral h] at hend
      subst hend
      exact ⟨blanks,sign,neg,ds,h⟩
  · rintro ⟨blanks,sign,neg,ds,h⟩
    refine ⟨?_,by rw [strtoul_numeral h]⟩
    rintro rfl
    obtain ⟨body,hs,hspell⟩ := h.split
    have hbody : body=[] := by
      simp only [List.nil_eq,List.append_eq_nil_iff] at hs
      exact hs.2.2.1
    subst hbody
    cases hspell
    exact h.digits_ne rfl

end

end

end Umanet.Framework
