import Umanet.Framework.CString

namespace Umanet.Framework

/-- The directives of a `scanf` format made of `%<w>x` conversions and ordinary characters. -/
inductive Directive
  | hex (w : Nat)
  | lit (c : Char)

def takeMark (s : List Char) : Bool × List Char :=
  match s with
  | c::e::t => if c = '0' ∧ (e = 'x' ∨ e = 'X') then (true,t) else (false,c::e::t)
  | s => (false,s)

/-- One `%<w>x` conversion after the blanks: sign, mark and digits all count against the width, and
an unsigned int of 32 bits is stored. A mark with no digit behind it fails by the standard; some C
libraries read it as zero, and there `bare` is true. -/
def scanHex (bare : Bool) (w : Nat) (s : List Char) : Option (Nat × List Char) :=
  let r := takeSign (s.take w)
  let m := takeMark r.2
  let d := digits 16 m.2
  if d.1=[] ∧ ¬(bare=true ∧ m.1=true) then none
  else some (ulong r.1 (value 16 d.1)%2^32,d.2++s.drop w)

/-- The values converted, and whether the input ended before the format did. -/
def scan (bare : Bool) : List Directive → List Char → List Nat × Bool
  | [],_ => ([],false)
  | .lit _::_,[] => ([],true)
  | .lit c::fmt,e::s => if e=c then scan bare fmt s else ([],false)
  | .hex w::fmt,s =>
    -- only a conversion skips blanks, an ordinary character does not
    if s.dropWhile isSpace=[] then ([],true)
    else
      match scanHex bare w (s.dropWhile isSpace) with
      | none => ([],false)
      | some (n,rest) => (n::(scan bare fmt rest).1,(scan bare fmt rest).2)

/-- `sscanf`: the number of conversions, or EOF where the input ends before the first. -/
def sscanf (bare : Bool) (fmt : List Directive) (s : List Char) : Int × List Nat :=
  let r := scan bare fmt s
  (if r.2=true ∧ r.1=[] then -1 else r.1.length,r.1)

/-- k conversions of width w with a separator between them. -/
def groups (w : Nat) (sep : Char) : Nat → List Directive
  | 0 => []
  | 1 => [.hex w]
  | k+2 => .hex w::.lit sep::groups w sep (k+1)

inductive Mark : List Char → Bool → Prop
  | none : Mark [] false
  | lower : Mark ['0','x'] true
  | upper : Mark ['0','X'] true

/-- A window of the input as sign, mark, digits to base 16, and what is left over. -/
structure Item (window sign mark : List Char) (neg marked : Bool) (ds : List Nat)
    (left : List Char) : Prop where
  split : ∃ body,window=sign++(mark++(body++left)) ∧ Spells 16 body ds
  sgn : Sign sign neg
  mrk : Mark mark marked
  unmarked : marked=false → ∀ c t,window=sign++ '0'::c::t → c≠ 'x' ∧ c≠ 'X'
  stop : NoDigit 16 left

/-- A conversion reads n: the next w characters after any blanks are an item with value n. -/
def Reads (bare : Bool) (w : Nat) (s : List Char) (n : Nat) (rest : List Char) : Prop :=
  ∃ blanks t sign mark neg marked ds left,s=blanks++t ∧ (∀ c∈blanks,isSpace c=true) ∧
    Item (t.take w) sign mark neg marked ds left ∧ (ds≠[] ∨ bare=true ∧ marked=true) ∧
    n=ulong neg (value 16 ds)%2^32 ∧ rest=left++t.drop w

/-- Values read one after another with a separator between them; what follows is not looked at. -/
inductive Scans (bare : Bool) (w : Nat) (sep : Char) : List Nat → List Char → Prop
  | last {s rest : List Char} {n : Nat} : Reads bare w s n rest → Scans bare w sep [n] s
  | more {s rest : List Char} {n : Nat} {vals : List Nat} : Reads bare w s n (sep::rest) →
      Scans bare w sep vals rest → Scans bare w sep (n::vals) s

section
variable {bare neg marked : Bool} {w : Nat} {sep : Char} {s t window sign mark left rest : List Char}
  {ds vals : List Nat} {n : Nat}

theorem takeMark_spec (s : List Char) : ∃ mark,s=mark++(takeMark s).2 ∧ Mark mark (takeMark s).1 ∧
    ((takeMark s).1=false → ∀ c t,s= '0'::c::t → c≠ 'x' ∧ c≠ 'X') := by
  unfold takeMark
  split
  · next c e t =>
    by_cases h : c = '0' ∧ (e = 'x' ∨ e = 'X')
    · rw [if_pos h]
      obtain ⟨rfl,rfl | rfl⟩ := h
      · exact ⟨_,rfl,.lower,nofun⟩
      · exact ⟨_,rfl,.upper,nofun⟩
    · rw [if_neg h]
      refine ⟨[],rfl,.none,?_⟩
      rintro - c t ⟨⟩
      simp only [true_and,not_or] at h
      exact h
  · next hshort =>
    refine ⟨[],rfl,.none,?_⟩
    rintro - c t rfl
    exact absurd rfl (hshort _ _ _)

theorem takeMark_append (h : Mark mark marked)
    (hu : marked=false → ∀ c u,t= '0'::c::u → c≠ 'x' ∧ c≠ 'X') :
    takeMark (mark++t)=(marked,t) := by
  cases h with
  | lower => rfl
  | upper => rfl
  | none =>
    rw [List.nil_append]
    unfold takeMark
    split
    · next c e u =>
      apply if_neg
      rintro ⟨rfl,hx⟩
      obtain ⟨hl,hU⟩ := hu rfl e u rfl
      exact hx.elim hl hU
    · rfl

theorem Item.first (h : Item window sign mark neg marked ds left) (hne : ds≠[] ∨ marked=true) :
    ∃ c d t,window=sign++c::t ∧ digit 16 c=some d := by
  obtain ⟨⟨body,rfl,hspell⟩,-,hm,-,-⟩ := h
  cases hm with
  | lower => exact ⟨'0',0,_,rfl,rfl⟩
  | upper => exact ⟨'0',0,_,rfl,rfl⟩
  | none =>
    cases hspell with
    | nil => exact absurd rfl (hne.resolve_right nofun)
    | cons hc _ => exact ⟨_,_,_,rfl,hc⟩

theorem scanHex_item (h : Item (s.take w) sign mark neg marked ds left)
    (hne : ds≠[] ∨ bare=true ∧ marked=true) :
    scanHex bare w s=some (ulong neg (value 16 ds)%2^32,left++s.drop w) := by
  obtain ⟨c,d,t,hw,hc⟩ := h.first (hne.imp_right And.right)
  obtain ⟨⟨body,hsplit,hspell⟩,hsign,hmark,hun,hstop⟩ := h
  have hct : c::t=mark++(body++left) := List.append_cancel_left (hw.symm.trans hsplit)
  have hsigned : takeSign (s.take w)=(neg,mark++(body++left)) := by
    rw [hw,takeSign_append hsign hc,hct]
  have hmarked : takeMark (mark++(body++left))=(marked,body++left) := by
    apply takeMark_append hmark
    intro hm e u hu
    subst hm
    cases hmark
    apply hun rfl e u
    rw [hsplit,← hu]
    rfl
  have hdigits := digits_append hspell hstop
  unfold scanHex
  simp only [hsigned,hmarked,hdigits]
  apply if_neg
  rintro ⟨hnil,hno⟩
  exact hne.elim (absurd hnil) hno

theorem item_of_scanHex (h : scanHex bare w s=some (n,rest)) :
    ∃ sign mark neg marked ds left,Item (s.take w) sign mark neg marked ds left ∧
      (ds≠[] ∨ bare=true ∧ marked=true) ∧ n=ulong neg (value 16 ds)%2^32 ∧
      rest=left++s.drop w := by
  obtain ⟨sign,hw,hsign⟩ := takeSign_spec (s.take w)
  obtain ⟨mark,hm,hmark,hun⟩ := takeMark_spec (takeSign (s.take w)).2
  obtain ⟨body,hd,hspell,hstop⟩ := digits_spec 16 (takeMark (takeSign (s.take w)).2).2
  simp only [scanHex] at h
  split at h
  · cases h
  · next hne =>
    obtain ⟨rfl,rfl⟩ := Prod.mk.inj (Option.some.inj h)
    refine ⟨sign,mark,_,_,_,_,⟨⟨body,?_,hspell⟩,hsign,hmark,?_,hstop⟩,?_,rfl,rfl⟩
    · rw [← hd,← hm]
      exact hw
    · intro hfalse c t ht
      apply hun hfalse c t
      exact List.append_cancel_left (hw.symm.trans ht)
    · rw [not_and_or,not_not] at hne
      exact hne

/-- The blanks skipped before a conversion are those the item does not begin with. -/
theorem reads_iff : Reads bare w s n rest ↔ scanHex bare w (s.dropWhile isSpace)=some (n,rest) := by
  constructor
  · rintro ⟨blanks,t,sign,mark,neg,marked,ds,left,rfl,hblank,hitem,hne,rfl,rfl⟩
    have hhead : ∀ c u,t=c::u → isSpace c=false := by
      rintro c u rfl
      obtain ⟨e,d,v,hw,he⟩ := hitem.first (hne.imp_right And.right)
      cases w with
      | zero =>
        rw [List.take_zero] at hw
        exact absurd hw (by simp)
      | succ w => exact sign_head hitem.sgn he c _ hw.symm
    rw [dropWhile_blanks hblank hhead]
    exact scanHex_item hitem hne
  · intro h
    obtain ⟨blanks,hs,hblank,-⟩ := blanks_dropWhile s
    obtain ⟨sign,mark,neg,marked,ds,left,h⟩ := item_of_scanHex h
    exact ⟨blanks,_,sign,mark,neg,marked,ds,left,hs,hblank,h⟩

theorem Reads.unique {n' : Nat} {rest' : List Char} (h : Reads bare w s n rest)
    (h' : Reads bare w s n' rest') : n=n' ∧ rest=rest' := by
  rw [reads_iff] at h h'
  exact Prod.mk.inj (Option.some.inj (h.symm.trans h'))

theorem scan_hex_cons (fmt : List Directive) (s : List Char) :
    (scan bare (.hex w::fmt) s).1=
      match scanHex bare w (s.dropWhile isSpace) with
      | none => []
      | some (n,rest) => n::(scan bare fmt rest).1 := by
  rw [scan]
  by_cases h : s.dropWhile isSpace=[]
  · rw [if_pos h,h]
    cases bare <;> cases w <;> rfl
  · rw [if_neg h]
    cases scanHex bare w (s.dropWhile isSpace) <;> rfl

theorem scan_hex_eq_cons {fmt : List Directive} :
    (scan bare (.hex w::fmt) s).1=n::vals ↔
      ∃ rest,Reads bare w s n rest ∧ (scan bare fmt rest).1=vals := by
  rw [scan_hex_cons]
  constructor
  · intro h
    cases hx : scanHex bare w (s.dropWhile isSpace) with
    | none =>
      rw [hx] at h
      cases h
    | some p =>
      rw [hx] at h
      obtain ⟨rfl,hv⟩ := List.cons.inj h
      exact ⟨p.2,reads_iff.mpr hx,hv⟩
  · rintro ⟨rest,hr,rfl⟩
    rw [reads_iff.mp hr]

/-- A format of k groups converts all of them exactly on the inputs that begin with k groups. -/
theorem scan_groups_iff {k : Nat} (hk : vals.length=k+1) :
    (scan bare (groups w sep (k+1)) s).1=vals ↔ Scans bare w sep vals s := by
  induction k generalizing vals s with
  | zero =>
    obtain ⟨n,rfl⟩ := List.length_eq_one_iff.mp hk
    rw [groups,scan_hex_eq_cons]
    constructor
    · rintro ⟨rest,hr,-⟩
      exact .last hr
    · intro h
      cases h with
      | last hr => exact ⟨_,hr,rfl⟩
      | more _ h => cases h
  | succ k ih =>
    obtain ⟨n,vals,rfl⟩ := List.exists_cons_of_length_eq_add_one hk
    have hlen : vals.length=k+1 := Nat.succ.inj hk
    rw [groups,scan_hex_eq_cons]
    constructor
    · rintro ⟨rest,hr,hv⟩
      cases rest with
      | nil =>
        rw [scan] at hv
        subst hv
        cases hlen
      | cons e rest =>
        rw [scan] at hv
        split at hv
        · next he =>
          subst he
          exact .more hr ((ih hlen).mp hv)
        · subst hv
          cases hlen
    · intro h
      cases h with
      | last hr => cases hlen
      | more hr h =>
        refine ⟨_,hr,?_⟩
        rw [scan,if_pos rfl]
        exact (ih hlen).mpr h

theorem sscanf_groups_iff {k : Nat} :
    (sscanf bare (groups w sep (k+1)) s).1=(k+1 : Nat) ↔
      ∃ vals,vals.length=k+1 ∧ Scans bare w sep vals s := by
  have hcount : (sscanf bare (groups w sep (k+1)) s).1=(k+1 : Nat) ↔
      (scan bare (groups w sep (k+1)) s).1.length=k+1 := by
    unfold sscanf
    simp only
    split
    · next h =>
      rw [h.2]
      constructor
      · intro h0
        exact absurd h0 (by omega)
      · intro h0
        cases h0
    · exact Int.ofNat_inj
  rw [hcount]
  constructor
  · intro h
    exact ⟨_,h,(scan_groups_iff h).mp rfl⟩
  · rintro ⟨vals,hlen,h⟩
    rw [(scan_groups_iff hlen).mpr h]
    exact hlen

end

end Umanet.Framework
