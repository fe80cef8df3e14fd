import Mathlib.Data.Fin.VecNotation
import Mathlib.Data.List.GetD
import Umanet.Framework.Scanf
import Umanet.Vhost.State

namespace Umanet

open Framework

/-- The two notations of an Ethernet address -/
inductive Sep
  | colon
  | dash

def Sep.char : Sep → Char
  | .colon => ':'
  | .dash => '-'

/-- `"%02x:%02x:%02x:%02x:%02x:%02x"`, or the same with dashes -/
def etherFormat (sep : Sep) : List Directive := groups 2 sep.char 6

/-- The loop that copies `bytes` to the address. It stops at the first value above a byte, with the
values before it already written. -/
def copyBytes (bytes : Fin 6 → Nat) : List (Fin 6) → Mac → Int × Mac
  | [],addr => (0,addr)
  | i::is,addr =>
    if 0xFF < bytes i then (-1,addr)
    else copyBytes bytes is (Function.update addr i (BitVec.ofNat 8 (bytes i)))

/-- `parse_ether_addr`: the value returned, and the address after the call. -/
def parseEtherAddr (bare : Bool) (s : CString) (addr : Mac) : Int × Mac :=
  let r := sscanf bare (etherFormat .colon) s.chars
  let r := if r.1≠6 then sscanf bare (etherFormat .dash) s.chars else r
  if r.1≠6 then (-1,addr)
  -- all six entries of the buffer come from the attempt that converted six
  else copyBytes (fun i => r.2.getD i 0) (List.finRange 6) addr

def Octet (s : List Char) (n : Nat) : Prop :=
  ∃ ds,Spells 16 s ds ∧ (ds.length=1 ∨ ds.length=2) ∧ value 16 ds=n

/-- Octets with one separator throughout, and nothing else. -/
inductive Octets (sep : Sep) : List Nat → List Char → Prop
  | last {s : List Char} {n : Nat} : Octet s n → Octets sep [n] s
  | more {s rest : List Char} {n : Nat} {vals : List Nat} : Octet s n → Octets sep vals rest →
      Octets sep (n::vals) (s++sep.char::rest)

def MacText (s : List Char) (a : Mac) : Prop :=
  ∃ sep,Octets sep (List.ofFn fun i => (a i).toNat) s

/-- The grammar is what is accepted, its values are stored, and a failure changes nothing. -/
structure MacExact (s : CString) (addr : Mac) (r : Int × Mac) : Prop where
  accept : r.1=0 ↔ ∃ a,MacText s.chars a
  stored : ∀ a,MacText s.chars a → r.2=a
  keep : r.1≠0 → r.2=addr

/-- The string begins with what six conversions read as these values. -/
def ReadsMac (bare : Bool) (s : CString) (bytes : Fin 6 → Nat) : Prop :=
  ∃ sep : Sep,Scans bare 2 sep.char (List.ofFn bytes) s.chars

def hexChar (upper : Bool) (d : Nat) : Char :=
  Char.ofNat (if d < 10 then 48+d else if upper then 55+d else 87+d)

/-- `%02x` or `%02X` of a byte -/
def printByte (upper : Bool) (b : Byte) : List Char :=
  [hexChar upper (b.toNat/16),hexChar upper (b.toNat%16)]

def printBytes (upper : Bool) (sep : Sep) : List Byte → List Char
  | [] => []
  | [b] => printByte upper b
  | b::bs => printByte upper b++sep.char::printBytes upper sep bs

section
variable {bare upper : Bool} {sep : Sep} {s rest : List Char} {n : Nat} {vals : List Nat}

theorem digit_hexChar : ∀ (upper : Bool) (d : Fin 16),digit 16 (hexChar upper d)=some d.val := by
  decide

theorem sep_noDigit : ∀ sep : Sep,digit 16 sep.char=none ∧ sep.char≠ 'x' ∧ sep.char≠ 'X' ∧
    sep.char≠ '\x00' := by
  rintro (_ | _) <;> decide

theorem octet_le (h : Octet s n) : n ≤ 255 := by
  obtain ⟨ds,hspell,hlen,rfl⟩ := h
  rcases hlen with hlen | hlen
  · obtain ⟨d,rfl⟩ := List.length_eq_one_iff.mp hlen
    cases hspell with
    | cons hd _ =>
      have hlt := digit_lt hd
      show 16*0+d ≤ 255
      omega
  · obtain ⟨d,e,rfl⟩ := List.length_eq_two.mp hlen
    cases hspell with
    | cons hd ht =>
      cases ht with
      | cons he _ =>
        have hlt := digit_lt hd
        have hlt' := digit_lt he
        show 16*(16*0+d)+e ≤ 255
        omega

theorem octet_printByte (upper : Bool) (b : Byte) : Octet (printByte upper b) b.toNat := by
  have hb := b.isLt
  have hhi := digit_hexChar upper ⟨b.toNat/16,by omega⟩
  have hlo := digit_hexChar upper ⟨b.toNat%16,by omega⟩
  refine ⟨[b.toNat/16,b.toNat%16],.cons hhi (.cons hlo .nil),.inr rfl,?_⟩
  show 16*(16*0+b.toNat/16)+b.toNat%16=b.toNat
  omega

theorem octets_printBytes (upper : Bool) (sep : Sep) (b : Byte) (bs : List Byte) :
    Octets sep ((b::bs).map BitVec.toNat) (printBytes upper sep (b::bs)) := by
  induction bs generalizing b with
  | nil => exact .last (octet_printByte upper b)
  | cons b' bs ih => exact .more (octet_printByte upper b) (ih b')

theorem Octets.chars (h : Octets sep vals s) : ∀ c∈s,hexVal c≠none ∨ c=sep.char := by
  have hoctet {t : List Char} {n : Nat} (ht : Octet t n) : ∀ c∈t,hexVal c≠none := by
    obtain ⟨ds,hspell,-,-⟩ := ht
    intro c hc
    induction hspell with
    | nil => cases hc
    | cons hd _ ih =>
      rcases List.mem_cons.mp hc with rfl | hc
      · rw [digit_isSome hd]
        exact Option.some_ne_none _
      · exact ih hc
  induction h with
  | last ho => exact fun c hc => .inl (hoctet ho c hc)
  | more ho _ ih =>
    intro c hc
    rcases List.mem_append.mp hc with hc | hc
    · exact .inl (hoctet ho c hc)
    · rcases List.mem_cons.mp hc with rfl | hc
      · exact .inr rfl
      · exact ih c hc

end

/-- An address printed in either notation, with small or capital letters. -/
def printEtherAddr (upper : Bool) (sep : Sep) (a : Mac) : CString where
  chars := printBytes upper sep (List.ofFn a)
  noNul h := by
    rcases (octets_printBytes upper sep _ _).chars _ h with hd | hs
    · exact hd (by decide)
    · exact (sep_noDigit sep).2.2.2 hs.symm

section
variable {bare upper : Bool} {sep : Sep} {s rest : List Char} {n : Nat} {vals : List Nat}

theorem macText_print (upper : Bool) (sep : Sep) (a : Mac) :
    MacText (printEtherAddr upper sep a).chars a := by
  refine ⟨sep,?_⟩
  have h := octets_printBytes upper sep (a 0) (List.ofFn fun i : Fin 5 => a i.succ)
  rw [← List.ofFn_succ,List.map_ofFn] at h
  exact h

theorem ulong_octet (h : n ≤ 255) : ulong false n%2^32=n := by
  have hn : ulong false n=n := if_neg (by omega)
  rw [hn]
  exact Nat.mod_eq_of_lt (by omega)

/-- A conversion reads an octet whole, up to a separator or the end. -/
theorem Octet.reads (h : Octet s n)
    (hrest : ∀ c t,rest=c::t → digit 16 c=none ∧ c≠ 'x' ∧ c≠ 'X') :
    Reads bare 2 (s++rest) n rest := by
  have hle := octet_le h
  obtain ⟨ds,hspell,hlen,rfl⟩ := h
  rcases hlen with hlen | hlen
  · obtain ⟨d,rfl⟩ := List.length_eq_one_iff.mp hlen
    cases hspell with
    | @cons c _ _ _ hd ht =>
      cases ht
      refine ⟨[],_,[],[],false,false,[d],rest.take 1,rfl,nofun,
        ⟨⟨[c],rfl,.cons hd .nil⟩,.none,.none,?_,?_⟩,.inl nofun,(ulong_octet hle).symm,?_⟩
      · rintro - e t ht
        cases rest with
        | nil => cases ht
        | cons e' u =>
          cases ht
          exact (hrest _ _ rfl).2
      · intro e t ht
        cases rest with
        | nil => cases ht
        | cons e' u =>
          cases ht
          exact (hrest _ _ rfl).1
      · exact (List.take_append_drop 1 rest).symm
  · obtain ⟨d,e,rfl⟩ := List.length_eq_two.mp hlen
    cases hspell with
    | @cons c _ _ _ hd ht =>
      cases ht with
      | @cons c' _ _ _ he ht =>
        cases ht
        refine ⟨[],_,[],[],false,false,[d,e],[],rfl,nofun,
          ⟨⟨[c,c'],rfl,.cons hd (.cons he .nil)⟩,.none,.none,?_,nofun⟩,.inl nofun,
          (ulong_octet hle).symm,rfl⟩
        rintro - x t ht
        cases ht
        have hv := digit_isSome he
        constructor
        · rintro rfl
          cases hv
        · rintro rfl
          cases hv

theorem Octets.scans (h : Octets sep vals s) : Scans bare 2 sep.char vals s := by
  induction h with
  | @last s n ho =>
    have hr : Reads bare 2 (s++[]) n [] := ho.reads nofun
    rw [List.append_nil] at hr
    exact .last hr
  | more ho _ ih =>
    refine .more (ho.reads ?_) ih
    rintro c t ⟨⟩
    have hsep := sep_noDigit sep
    exact ⟨hsep.1,hsep.2.1,hsep.2.2.1⟩

/-- A string that goes on after its first value is not read in both notations. -/
theorem scans_exclusive {m : Nat} {vals' : List Nat} (hv : vals≠[]) (hv' : vals'≠[])
    (h : Scans bare 2 (Sep.colon.char) (n::vals) s) :
    ¬Scans bare 2 (Sep.dash.char) (m::vals') s := by
  intro h'
  cases h with
  | last _ => exact hv rfl
  | more hr _ =>
    cases h' with
    | last _ => exact hv' rfl
    | more hr' _ =>
      have hrest := (hr.unique hr').2
      cases hrest

end

section
variable {bare : Bool} {s : CString} {addr : Mac} {bytes : Fin 6 → Nat}

theorem copyBytes_of_le {l : List (Fin 6)} (h : ∀ i∈l,bytes i ≤ 0xFF) (addr : Mac) :
    copyBytes bytes l addr=(0,fun j => if j∈l then BitVec.ofNat 8 (bytes j) else addr j) := by
  induction l generalizing addr with
  | nil => rfl
  | cons i l ih =>
    have hi : ¬0xFF < bytes i := Nat.not_lt.mpr (h i List.mem_cons_self)
    rw [copyBytes,if_neg hi,ih fun j hj => h j (List.mem_cons_of_mem _ hj)]
    apply congrArg (Prod.mk 0)
    funext j
    by_cases hj : j=i
    · subst hj
      simp
    · simp [hj]

theorem copyBytes_append {l : List (Fin 6)} (h : ∀ i∈l,bytes i ≤ 0xFF) (k : List (Fin 6))
    (addr : Mac) : copyBytes bytes (l++k) addr=copyBytes bytes k (copyBytes bytes l addr).2 := by
  induction l generalizing addr with
  | nil => rfl
  | cons i l ih =>
    have hi : ¬0xFF < bytes i := Nat.not_lt.mpr (h i List.mem_cons_self)
    rw [List.cons_append,copyBytes,if_neg hi,ih fun j hj => h j (List.mem_cons_of_mem _ hj),copyBytes,
      if_neg hi]

theorem finRange_split : ∀ i : Fin 6,
    List.finRange 6=(List.finRange 6).take i++i::(List.finRange 6).drop (i+1) := by
  decide

theorem mem_finRange_take : ∀ i j : Fin 6,j∈(List.finRange 6).take i ↔ j < i := by
  decide

/-- A value above a byte ends the copy after the values before it. -/
theorem copyBytes_of_gt {i : Fin 6} (hi : 0xFF < bytes i) (h : ∀ j,j < i → bytes j ≤ 0xFF) :
    copyBytes bytes (List.finRange 6) addr=
      (-1,fun j => if j < i then BitVec.ofNat 8 (bytes j) else addr j) := by
  have hpre : ∀ j∈(List.finRange 6).take i,bytes j ≤ 0xFF :=
    fun j hj => h j ((mem_finRange_take i j).mp hj)
  rw [finRange_split i,copyBytes_append hpre,copyBytes_of_le hpre,copyBytes,if_pos hi]
  simp only [mem_finRange_take]

theorem copyBytes_all (h : ∀ i,bytes i ≤ 0xFF) :
    copyBytes bytes (List.finRange 6) addr=(0,fun j => BitVec.ofNat 8 (bytes j)) := by
  rw [copyBytes_of_le fun i _ => h i]
  simp only [List.mem_finRange,if_true]

theorem ofFn_getD {vals : List Nat} (h : vals.length=6) :
    List.ofFn (fun i : Fin 6 => vals.getD i 0)=vals := by
  apply List.ext_getElem
  · rw [List.length_ofFn,h]
  · intro i hi hi'
    rw [List.getElem_ofFn]
    exact List.getD_eq_getElem _ _ hi'

theorem sscanf_reads {sep : Sep} (h : Scans bare 2 sep.char (List.ofFn bytes) s.chars) :
    sscanf bare (etherFormat sep) s.chars=(6,List.ofFn bytes) := by
  have hlen : (List.ofFn bytes).length=5+1 := List.length_ofFn
  have hcount : (sscanf bare (etherFormat sep) s.chars).1=6 :=
    sscanf_groups_iff.mpr ⟨_,hlen,h⟩
  have hvals : (sscanf bare (etherFormat sep) s.chars).2=List.ofFn bytes :=
    (scan_groups_iff hlen).mpr h
  rw [← hcount,← hvals]

theorem reads_of_sscanf {sep : Sep} (h : (sscanf bare (etherFormat sep) s.chars).1=6) :
    ∃ bytes : Fin 6 → Nat,Scans bare 2 sep.char (List.ofFn bytes) s.chars := by
  obtain ⟨vals,hlen,hscan⟩ := (sscanf_groups_iff (k:=5)).mp h
  refine ⟨fun i => vals.getD i 0,?_⟩
  rw [ofFn_getD hlen]
  exact hscan

theorem parseEtherAddr_reads (h : ReadsMac bare s bytes) (addr : Mac) :
    parseEtherAddr bare s addr=copyBytes bytes (List.finRange 6) addr := by
  have hbytes : (fun i : Fin 6 => (List.ofFn bytes).getD i 0)=bytes := by
    funext i
    rw [List.getD_eq_getElem _ _ (by rw [List.length_ofFn]; exact i.isLt),List.getElem_ofFn]
  obtain ⟨sep,h⟩ := h
  have hread := sscanf_reads h
  cases sep with
  | colon =>
    unfold parseEtherAddr
    simp only [hread,ne_eq,not_true_eq_false,if_false]
    rw [hbytes]
  | dash =>
    have hcolon : (sscanf bare (etherFormat .colon) s.chars).1≠6 := by
      intro hc
      obtain ⟨bytes',hc⟩ := reads_of_sscanf hc
      rw [List.ofFn_succ] at h hc
      exact scans_exclusive (by simp) (by simp) hc h
    unfold parseEtherAddr
    simp only [hread,hcolon,ne_eq,not_true_eq_false,not_false_eq_true,if_true,if_false]
    rw [hbytes]

theorem parseEtherAddr_unread (h : ¬∃ bytes,ReadsMac bare s bytes) (addr : Mac) :
    parseEtherAddr bare s addr=(-1,addr) := by
  have hno (sep : Sep) : (sscanf bare (etherFormat sep) s.chars).1≠6 := by
    intro hc
    obtain ⟨bytes,hc⟩ := reads_of_sscanf hc
    exact h ⟨bytes,sep,hc⟩
  unfold parseEtherAddr
  simp only [hno,ne_eq,not_false_eq_true,if_true]

theorem MacText.reads {a : Mac} (h : MacText s.chars a) :
    ReadsMac bare s fun i => (a i).toNat := by
  obtain ⟨sep,h⟩ := h
  exact ⟨sep,h.scans⟩

theorem parseEtherAddr_text {a : Mac} (h : MacText s.chars a) (bare : Bool) (addr : Mac) :
    parseEtherAddr bare s addr=(0,a) := by
  rw [parseEtherAddr_reads h.reads,copyBytes_all fun i => Nat.le_of_lt_succ (a i).isLt]
  apply congrArg (Prod.mk 0)
  funext i
  exact BitVec.ofNat_toNat ..

theorem macExact_accepted {a : Mac} (h : MacText s.chars a) (addr : Mac) :
    MacExact s addr (0,a) := by
  refine ⟨⟨fun _ => ⟨a,h⟩,fun _ => rfl⟩,?_,fun h0 => absurd rfl h0⟩
  intro a' h'
  have heq := (parseEtherAddr_text h true addr).symm.trans (parseEtherAddr_text h' true addr)
  exact (Prod.mk.inj heq).2

theorem macExact_refused (h : ∀ a,¬MacText s.chars a) (addr : Mac) :
    MacExact s addr (-1,addr) := by
  refine ⟨⟨?_,?_⟩,fun a ha => absurd ha (h a),fun _ => rfl⟩
  · intro h0
    cases h0
  · intro htext
    obtain ⟨a,ha⟩ := htext
    exact absurd ha (h a)

/-- Among values some of which are above a byte there is a first such value. -/
theorem exists_first (h : ¬∀ i,bytes i ≤ 0xFF) :
    ∃ i,0xFF < bytes i ∧ ∀ j,j < i → bytes j ≤ 0xFF := by
  by_contra hno
  apply h
  intro i
  induction i using WellFoundedLT.induction with
  | ind i ih =>
    by_contra hi
    exact hno ⟨i,Nat.lt_of_not_le hi,ih⟩

/-- Where the address was left as it was, the bytes written were those already there. -/
theorem copyBytes_keep_iff {i : Fin 6} (h : ∀ j,j < i → bytes j ≤ 0xFF) :
    (fun j => if j < i then BitVec.ofNat 8 (bytes j) else addr j)=addr ↔
      ∀ j,j < i → bytes j=(addr j).toNat := by
  constructor
  · intro heq j hj
    have hbyte := congrFun heq j
    simp only [hj,if_true] at hbyte
    rw [← hbyte,BitVec.toNat_ofNat]
    exact (Nat.mod_eq_of_lt (Nat.lt_succ_of_le (h j hj))).symm
  · intro heq
    funext j
    by_cases hj : j < i
    · rw [if_pos hj,heq j hj]
      exact BitVec.ofNat_toNat ..
    · rw [if_neg hj]

end

/-- The parser is exact on the grammar, on what no six conversions read, and where a value above a
byte comes before anything has changed. A printed address is read back in every case. -/
theorem parse_ether_addr_exact_iff (bare : Bool) (s : CString) (addr : Mac) :
    (MacExact s addr (parseEtherAddr bare s addr) ↔
      (∃ a,MacText s.chars a) ∨ (¬∃ bytes,ReadsMac bare s bytes) ∨
        ∃ bytes i,ReadsMac bare s bytes ∧ 0xFF < bytes i ∧
          ∀ j,j < i → bytes j=(addr j).toNat) ∧
      ∀ upper sep a,parseEtherAddr bare (printEtherAddr upper sep a) addr=(0,a) := by
  refine ⟨⟨?_,?_⟩,fun upper sep a => parseEtherAddr_text (macText_print upper sep a) bare addr⟩
  · intro h
    by_cases hread : ∃ bytes,ReadsMac bare s bytes
    · obtain ⟨bytes,hread⟩ := hread
      have hparse := parseEtherAddr_reads hread addr
      by_cases hall : ∀ i,bytes i ≤ 0xFF
      · left
        apply h.accept.mp
        rw [hparse,copyBytes_all hall]
      · obtain ⟨i,hi,hbefore⟩ := exists_first hall
        refine .inr (.inr ⟨bytes,i,hread,hi,?_⟩)
        have hkeep := h.keep
        rw [hparse,copyBytes_of_gt hi hbefore] at hkeep
        exact (copyBytes_keep_iff hbefore).mp (hkeep (show (-1 : Int)≠0 by decide))
    · exact .inr (.inl hread)
  · rintro (⟨a,ha⟩ | hnone | ⟨bytes,i,hread,hi,hsame⟩)
    · rw [parseEtherAddr_text ha]
      exact macExact_accepted ha addr
    · rw [parseEtherAddr_unread hnone]
      exact macExact_refused (fun a ha => hnone ⟨_,ha.reads⟩) addr
    · have hbefore : ∀ j,j < i → bytes j ≤ 0xFF := by
        intro j hj
        rw [hsame j hj]
        exact Nat.le_of_lt_succ (addr j).isLt
      have hparse : parseEtherAddr bare s addr=(-1,addr) := by
        rw [parseEtherAddr_reads hread,copyBytes_of_gt hi hbefore,
          (copyBytes_keep_iff hbefore).mpr hsame]
      rw [hparse]
      apply macExact_refused
      intro a ha
      have heq := hparse.symm.trans (parseEtherAddr_text ha bare addr)
      cases (Prod.mk.inj heq).1

/-- `--other-node-mac 02:00:00:00:00:01/24` -/
def macTrailing : CString :=
  ⟨['0','2',':','0','0',':','0','0',':','0','0',':','0','0',':','0','1','/','2','4'],by decide⟩

/-- `--other-node-mac 02:-1:00:00:00:00` -/
def macNegative : CString :=
  ⟨['0','2',':','-','1',':','0','0',':','0','0',':','0','0',':','0','0'],by decide⟩

/-- What follows the sixth group is accepted, with either treatment of a bare mark. -/
theorem macTrailing_accepted (bare : Bool) :
    parseEtherAddr bare macTrailing (fun _ => 0)=(0,![2,0,0,0,0,1]) := by
  cases bare <;> decide +kernel

theorem macTrailing_not_text (a : Mac) : ¬MacText macTrailing.chars a := by
  intro h
  obtain ⟨sep,h⟩ := h
  rcases h.chars '/' (by decide) with hd | hs
  · exact hd (by decide)
  · cases sep <;> cases hs

theorem macNegative_refused (bare : Bool) :
    parseEtherAddr bare macNegative (fun _ => 0)=(-1,![2,0,0,0,0,0]) := by
  cases bare <;> decide +kernel

/-- The text with a suffix is accepted, and the failed call has written a byte. -/
theorem parse_ether_addr_misreads :
    parseEtherAddr false macTrailing (fun _ => 0)=(0,![2,0,0,0,0,1]) ∧
      ¬MacExact macTrailing (fun _ => 0) (parseEtherAddr false macTrailing fun _ => 0) ∧
      parseEtherAddr false macNegative (fun _ => 0)=(-1,![2,0,0,0,0,0]) ∧
      ¬MacExact macNegative (fun _ => 0) (parseEtherAddr false macNegative fun _ => 0) := by
  refine ⟨macTrailing_accepted false,?_,macNegative_refused false,?_⟩
  · intro h
    rw [macTrailing_accepted] at h
    obtain ⟨a,ha⟩ := h.accept.mp rfl
    exact macTrailing_not_text a ha
  · intro h
    rw [macNegative_refused] at h
    have hkeep := congrFun (h.keep (by decide)) 0
    cases hkeep

end Umanet
