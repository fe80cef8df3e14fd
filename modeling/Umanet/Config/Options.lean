import Umanet.Framework.CString

namespace Umanet

open Framework

/-- The common body of `parse_int8`, `parse_int16` and `parse_int32`: the value returned, and what
is stored through `pi`. The store comes before the test. -/
def parseInt (w : Nat) (s : CString) : Int × BitVec w :=
  let r := strtoul s.chars
  (if s.chars=[] ∨ r.2≠[] then -1 else 0,BitVec.ofNat w r.1)

def parseInt8 (s : CString) : Int × BitVec 8 := parseInt 8 s

def parseInt16 (s : CString) : Int × BitVec 16 := parseInt 16 s

def parseInt32 (s : CString) : Int × BitVec 32 := parseInt 32 s

/-- A string of decimal digits, at least one, that denotes n. -/
def Denotes (s : List Char) (n : Nat) : Prop :=
  ∃ ds,ds≠[] ∧ Spells 10 s ds ∧ value 10 ds=n

/-- The strings accepted are the numbers below 2^w, and each is stored as it is. -/
structure AcceptsInRange (w : Nat) (s : CString) (r : Int × BitVec w) : Prop where
  accept : r.1=0 ↔ ∃ n,Denotes s.chars n ∧ n < 2^w
  stored : ∀ n,Denotes s.chars n → n < 2^w → r.2.toNat=n

/-- A numeral of `strtoul` with blanks or a sign in front, or too large for w bits. -/
def Surplus (w : Nat) (s : List Char) : Prop :=
  ∃ blanks sign neg ds,Numeral s blanks sign neg ds [] ∧
    (blanks≠[] ∨ sign≠[] ∨ 2^w ≤ value 10 ds)

section
variable {w : Nat} {s : CString} {n : Nat}

theorem parseInt_zero_iff : (parseInt w s).1=0 ↔
    ∃ blanks sign neg ds,Numeral s.chars blanks sign neg ds [] := by
  rw [← strtoul_all_iff]
  unfold parseInt
  by_cases h : s.chars=[] ∨ (strtoul s.chars).2≠[]
  · simp only [h,if_true]
    constructor
    · intro h0
      cases h0
    · rintro ⟨hne,hend⟩
      exact absurd h (by simp [hne,hend])
  · simp only [h,if_false,true_iff]
    simp only [ne_eq,not_or,not_not] at h
    exact h

theorem Denotes.numeral {t : List Char} (h : Denotes t n) :
    ∃ ds,Numeral t [] [] false ds [] ∧ value 10 ds=n := by
  obtain ⟨ds,hne,hspell,hv⟩ := h
  refine ⟨ds,⟨⟨t,?_,hspell⟩,?_,.none,hne,nofun⟩,hv⟩
  · simp
  · intro c hc
    cases hc

/-- A number in range is accepted and stored, whatever the width up to that of `strtoul`. -/
theorem Denotes.parseInt (h : Denotes s.chars n) (hn : n < 2^w) (hw : w ≤ 64) :
    (parseInt w s).1=0 ∧ (parseInt w s).2.toNat=n := by
  obtain ⟨ds,hnum,rfl⟩ := h.numeral
  refine ⟨parseInt_zero_iff.mpr ⟨[],[],false,ds,hnum⟩,?_⟩
  have hlong : value 10 ds < 2^64 :=
    Nat.lt_of_lt_of_le hn (Nat.pow_le_pow_right (by decide) hw)
  have hulong : ulong false (value 10 ds)=value 10 ds := by
    unfold ulong
    rw [if_neg (Nat.not_le.mpr hlong)]
    rfl
  show (BitVec.ofNat w (strtoul s.chars).1).toNat=value 10 ds
  rw [strtoul_numeral hnum,BitVec.toNat_ofNat,hulong]
  exact Nat.mod_eq_of_lt hn

theorem Denotes.numeral_unique {t blanks sign : List Char} {neg : Bool} {ds : List Nat}
    (h : Denotes t n) (hnum : Numeral t blanks sign neg ds []) :
    blanks=[] ∧ sign=[] ∧ value 10 ds=n := by
  obtain ⟨es,hne,hspell,rfl⟩ := h
  obtain ⟨⟨body,rfl,hbody⟩,hblank,hsign,-,-⟩ := hnum
  -- the first character is a digit, so it is neither a blank nor a sign
  have hblanks : blanks=[] := by
    cases blanks with
    | nil => rfl
    | cons c blanks =>
      cases hspell with
      | cons hc _ =>
        have hspace := hblank c List.mem_cons_self
        rw [not_isSpace_of_digit hc] at hspace
        cases hspace
  subst hblanks
  have hnosign : sign=[] := by
    cases hsign with
    | none => rfl
    | plus =>
      cases hspell with
      | cons hc _ => cases digit_isSome hc
    | minus =>
      cases hspell with
      | cons hc _ => cases digit_isSome hc
  subst hnosign
  refine ⟨rfl,rfl,?_⟩
  simp only [List.nil_append,List.append_nil] at hspell
  rw [spells_unique hbody hspell]

theorem denotes_of_not_surplus (hs : ¬Surplus w s.chars) {blanks sign : List Char} {neg : Bool}
    {ds : List Nat} (hnum : Numeral s.chars blanks sign neg ds []) :
    Denotes s.chars (value 10 ds) ∧ value 10 ds < 2^w := by
  have hplain : ¬(blanks≠[] ∨ sign≠[] ∨ 2^w ≤ value 10 ds) :=
    fun h => hs ⟨blanks,sign,neg,ds,hnum,h⟩
  simp only [ne_eq,not_or,not_not] at hplain
  obtain ⟨rfl,rfl,hlt⟩ := hplain
  obtain ⟨body,hsplit,hspell⟩ := hnum.split
  refine ⟨⟨ds,hnum.digits_ne,?_,rfl⟩,Nat.lt_of_not_le hlt⟩
  rw [hsplit]
  simpa using hspell

theorem parseInt_inRange_iff (hw : w ≤ 64) :
    AcceptsInRange w s (parseInt w s) ↔ ¬Surplus w s.chars := by
  constructor
  · intro h hs
    obtain ⟨blanks,sign,neg,ds,hnum,hextra⟩ := hs
    obtain ⟨n,hden,hn⟩ := h.accept.mp (parseInt_zero_iff.mpr ⟨blanks,sign,neg,ds,hnum⟩)
    obtain ⟨hb,hsg,hv⟩ := hden.numeral_unique hnum
    rcases hextra with hblanks | hsign | hlarge
    · exact hblanks hb
    · exact hsign hsg
    · omega
  · intro hs
    refine ⟨⟨?_,?_⟩,?_⟩
    · intro h0
      obtain ⟨blanks,sign,neg,ds,hnum⟩ := parseInt_zero_iff.mp h0
      exact ⟨_,denotes_of_not_surplus hs hnum⟩
    · rintro ⟨n,hden,hn⟩
      exact (hden.parseInt hn hw).1
    · intro n hden hn
      exact (hden.parseInt hn hw).2

end

/-- The three parsers accept exactly the numbers in range, except for what `strtoul` reads besides
them. -/
theorem parse_int_exact_iff (s : CString) :
    (AcceptsInRange 8 s (parseInt8 s) ↔ ¬Surplus 8 s.chars) ∧
      (AcceptsInRange 16 s (parseInt16 s) ↔ ¬Surplus 16 s.chars) ∧
      (AcceptsInRange 32 s (parseInt32 s) ↔ ¬Surplus 32 s.chars) := by
  refine ⟨?_,?_,?_⟩
  · exact parseInt_inRange_iff (by decide)
  · exact parseInt_inRange_iff (by decide)
  · exact parseInt_inRange_iff (by decide)

/-- `--eth-tx-queues 65537` -/
def queuesWrapped : CString := ⟨['6','5','5','3','7'],by decide⟩

/-- `--show-dash " -1"` -/
def dashNegative : CString := ⟨[' ','-','1'],by decide⟩

/-- 65537 queues are accepted as one, and a blank and a minus as the largest byte. -/
theorem parse_int_wraps :
    parseInt16 queuesWrapped=(0,1) ∧ ¬AcceptsInRange 16 queuesWrapped (parseInt16 queuesWrapped) ∧
      parseInt8 dashNegative=(0,255) ∧
      ¬AcceptsInRange 8 dashNegative (parseInt8 dashNegative) := by
  refine ⟨by decide +kernel,?_,by decide +kernel,?_⟩
  · intro h
    apply (parseInt_inRange_iff (by decide)).mp h
    refine ⟨[],[],false,[6,5,5,3,7],⟨⟨queuesWrapped.chars,rfl,?_⟩,nofun,.none,by decide,nofun⟩,?_⟩
    · exact .cons rfl (.cons rfl (.cons rfl (.cons rfl (.cons rfl .nil))))
    · exact .inr (.inr (by decide))
  · intro h
    apply (parseInt_inRange_iff (by decide)).mp h
    refine ⟨[' '],['-'],true,[1],⟨⟨['1'],rfl,.cons rfl .nil⟩,?_,.minus,by decide,nofun⟩,?_⟩
    · intro c hc
      rw [List.mem_singleton.mp hc]
      decide
    · exact .inl (by decide)

end Umanet
