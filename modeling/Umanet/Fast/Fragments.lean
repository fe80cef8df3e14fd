import Mathlib.Data.List.Pairwise
import Umanet.Fast.Cksum

namespace Umanet

open Framework

/-- `fragment_offset` in bytes. -/
def fragOffset (d : Data) : Nat := 8*(be16 d 20 &&& 0x1fff).toNat

def fragLen (d : Data) : Nat := totalLength d-ihl d*4

/-- No fragment follows: the more-fragments flag is clear. -/
def Last (d : Data) : Prop := be16 d 20 &&& 0x2000=0

instance (d : Data) : Decidable (Last d) := inferInstanceAs (Decidable (_=_))

def Covers (d : Data) (k : Nat) : Prop := fragOffset d ≤ k ∧ k < fragOffset d+fragLen d

instance (d : Data) (k : Nat) : Decidable (Covers d k) := inferInstanceAs (Decidable (_ ∧ _))

/-- What a receiver does: the fragment without the more-fragments flag gives the length, every
byte comes from a fragment that has it, and all bytes must be there. -/
def reassembledByte (fs : List Data) (k : Nat) : Option Byte :=
  (fs.find? fun f => Covers f k).map fun f => f (l4Offset f+(k-fragOffset f))

def reassembledLen (fs : List Data) : Option Nat :=
  (fs.find? fun f => Last f).map fun f => fragOffset f+fragLen f

def reassemble (fs : List Data) : Option (List Byte) := do
  let n ← reassembledLen fs
  (List.range n).mapM (reassembledByte fs)

/-- What an IP packet carries: the TCP segment or UDP datagram, its checksum included. -/
def payload (d : Data) : List Byte := (List.range (fragLen d)).map fun k => d (l4Offset d+k)

/-- An IPv4 fragment of a TCP or UDP datagram. -/
structure Fragment (d : Data) : Prop where
  ipv4 : etherType d=etherTypeIpv4
  ihl_ge : 5 ≤ ihl d
  proto : nextProtoId d=ipprotoTcp ∨ nextProtoId d=ipprotoUdp
  present : ihl d*4 ≤ totalLength d
  fragmented : be16 d 20 &&& 0x3fff≠0

/-- Fragments that have every byte of a datagram of n bytes once. -/
structure Tiling (n : Nat) (fs : List Data) : Prop where
  covered : ∀ k < n,∃ f∈fs,Covers f k
  disjoint : fs.Pairwise fun f f' => ∀ k,¬(Covers f k ∧ Covers f' k)
  within : ∀ f∈fs,fragOffset f+fragLen f ≤ n
  last : ∀ f∈fs,Last f ↔ fragOffset f+fragLen f=n

/-- A way of fragmenting the packet of frame d, the fragments in any order. -/
structure Fragmentation (d : Data) (fs : List Data) : Prop extends Tiling (fragLen d) fs where
  fragment : ∀ f∈fs,Fragment f
  packet : ∀ f∈fs,nextProtoId f=nextProtoId d ∧ be16 f 18=be16 d 18 ∧ be32 f 26=be32 d 26 ∧
    be32 f 30=be32 d 30
  bytes : ∀ f∈fs,∀ k < fragLen f,f (l4Offset f+k)=d (l4Offset d+(fragOffset f+k))

/-- The pseudo-header of a fragment taken for a whole segment. -/
def fragPseudo (d : Data) : List Nat :=
  bytesAt d 26 8++[0,(nextProtoId d).toNat,fragLen d/256,fragLen d%256]

/-- A sender's checksum of the two bytes x and y: UDP does not send zero, and no TCP segment has
all ones. -/
def Sendable (d : Data) (x y : Byte) : Prop :=
  if nextProtoId d=ipprotoTcp then ¬(x=255 ∧ y=255) else ¬(x=0 ∧ y=0)

def unsent (d : Data) : Nat := if nextProtoId d=ipprotoTcp then 2^16-1 else 0

/-- The fragment, taken for a whole segment with the checksum x,y, passes a receiver's check. The
word x,y is summed first, since the packet may end before the place of the field. -/
def PassesWith (d : Data) (x y : Byte) : Prop :=
  Sendable d x y ∧
  Verifies (fragPseudo d++x.toNat::y.toNat::
    bytesAt (store16 .big d (l4CksumAt d) 0) (l4Offset d) (fragLen d))

/-- In a frame of len bytes the place of a TCP or UDP checksum lies behind the end, or what is
there passes as the fragment's own checksum; of a frame that ends inside the place, with some
second byte. -/
def Unharmed (d : Data) (len : Nat) : Prop :=
  len ≤ l4CksumAt d ∨
  ∃ y,(l4CksumAt d+1 < len → y=d (l4CksumAt d+1)) ∧ PassesWith d (d (l4CksumAt d)) y

section
variable {e : Endian} {d d' : Data}

/-- The checksum reads the header, its own field apart, and the segment. -/
theorem udptcpCksum_congr (hs : SameHeader d d')
    (hb : bytesAt d' (l4Offset d) (totalLength d-ihl d*4)=
      bytesAt d (l4Offset d) (totalLength d-ihl d*4)) : udptcpCksum e d'=udptcpCksum e d := by
  have hlen : totalLength d < 2^16 := (be16 d 16).isLt
  have hraw : udptcpCksumRaw e d'=udptcpCksumRaw e d := by
    rw [udptcpCksumRaw,udptcpCksumRaw,hs.ihl,hs.totalLength,hs.l4Offset,phdrCksum,phdrCksum,
      hs.psdHdr,rawCksum_congr (by omega) hb]
  simp only [udptcpCksum]
  rw [hraw,hs.nextProtoId]

theorem word_eq_iff {x y : Byte} {c : Nat} (hc : c < 2^16) :
    Endian.word 256 e x.toNat y.toNat=c ↔ x=byte16 c e 0 ∧ y=byte16 c e 1 := by
  have hx := x.isLt
  have hy := y.isLt
  rw [← BitVec.toNat_inj,← BitVec.toNat_inj]
  cases e <;> simp only [Endian.word,byte16,BitVec.toNat_ofNat] <;> omega

theorem store16_big_zero {o : Nat} : store16 .big d o 0=store16 e d o 0 := by
  have hbyte : byte16 0 .big=byte16 0 e := by
    funext k
    cases e <;> simp [byte16]
  rw [store16,store16,hbyte]

theorem sendable_iff {x y : Byte} :
    Sendable d x y ↔ Endian.word 256 e x.toNat y.toNat≠unsent d := by
  have hx := x.isLt
  have hy := y.isLt
  have hones (b : Byte) : b=255 ↔ b.toNat=255 := BitVec.toNat_inj.symm
  have hnull (b : Byte) : b=0 ↔ b.toNat=0 := BitVec.toNat_inj.symm
  unfold Sendable unsent
  split
  · rw [hones,hones]
    cases e <;> simp only [Endian.word] <;> omega
  · rw [hnull,hnull]
    cases e <;> simp only [Endian.word] <;> omega

theorem store16_load16 (o : Nat) : store16 e d o (load16 e d o)=d := by
  obtain ⟨h0,h1⟩ := (word_eq_iff (e:=e) (x:=d o) (y:=d (o+1)) load16_lt).mp rfl
  funext i
  by_cases hi : o ≤ i ∧ i < o+2
  · rw [store16,store,if_pos hi]
    have hcase : i=o ∨ i=o+1 := by omega
    rcases hcase with rfl | rfl
    · rw [Nat.sub_self]
      exact h0.symm
    · rw [Nat.add_sub_cancel_left]
      exact h1.symm
  · exact store16_out (by omega)

namespace Fragment

variable (h : Fragment d)
include h

theorem le_l4CksumAt : 34 ≤ l4Offset d ∧ l4Offset d+6 ≤ l4CksumAt d := by
  have hihl := h.ihl_ge
  constructor
  · unfold l4Offset
    omega
  · unfold l4CksumAt
    split <;> omega

theorem fixData_sameHeader : SameHeader d (fixData e d) := by
  have hle := h.le_l4CksumAt
  intro i hi h24 h25
  exact fixData_out ⟨h24,h25⟩ (by omega)

theorem fixData_field {k : Nat} (hk : k < 2) : fixData e d (l4CksumAt d+k)=
    byte16 (udptcpCksum e (store16 e d (l4CksumAt d) 0)) e k := by
  have hle := h.le_l4CksumAt
  have hcksum : udptcpCksum e (store16 e (fillCksum e 24 (ipv4Cksum e) d) (l4CksumAt d) 0)=
      udptcpCksum e (store16 e d (l4CksumAt d) 0) := by
    have hs : SameHeader d (store16 e d (l4CksumAt d) 0) := store16_sameHeader (.inr (by omega))
    have hcomm : store16 e (fillCksum e 24 (ipv4Cksum e) d) (l4CksumAt d) 0=
        fillCksum e 24 (fun _ => ipv4Cksum e (store16 e d 24 0)) (store16 e d (l4CksumAt d) 0) := by
      rw [fillCksum_eq_store16,fillCksum_eq_store16,store16_comm (.inl (by omega))]
    rw [hcomm]
    apply udptcpCksum_congr (fillCksum_sameHeader (.inl rfl) _)
    apply bytesAt_congr
    intro i hi
    rw [hs.l4Offset,fillCksum_eq_store16,store16_out (by omega)]
  rw [fixData,fillCksum_eq_store16,hcksum,store16,store_in _ _ _ _ hk]

theorem sum_fragPseudo : (words 256 e (fragPseudo d)).sum=hostSum e (psdHdr d) 0 12 ∧
    (fragPseudo d).length=12 ∧ ∀ b∈fragPseudo d,b < 256 := by
  have hpsd : fragPseudo d=bytesAt (psdHdr d) 0 12 := (bytesAt_psdHdr_eq h.present).symm
  rw [hpsd]
  exact ⟨rfl,bytesAt_length,bytesAt_lt⟩

/-- A receiver's check of the pseudo-header and what follows, in the order of the host. -/
theorem verifies_fragPseudo_iff {l : List Nat} (hl : ∀ b∈l,b < 256) :
    Verifies (fragPseudo d++l) ↔ 2^16-1 ∣ hostSum e (psdHdr d) 0 12+(words 256 e l).sum := by
  obtain ⟨hsum,hlen,hlt⟩ := h.sum_fragPseudo (e:=e)
  have hproto : (nextProtoId d).toNat≠0 := by
    rcases h.proto with hp | hp
    · rw [hp]
      decide
    · rw [hp]
      decide
  have hmem : (nextProtoId d).toNat∈fragPseudo d++l := by simp [fragPseudo]
  have hall : ∀ b∈fragPseudo d++l,b < 256 := by
    intro b hb
    rcases List.mem_append.mp hb with hb | hb
    · exact hlt b hb
    · exact hl b hb
  rw [verifies_iff_dvd (e:=e) hall hmem hproto,words_append (by rw [hlen]),List.sum_append,hsum]

theorem cksum_ne_unsent (hs : SameHeader d d') : udptcpCksum e d'≠unsent d := by
  have hpres := h.present
  rw [← hs.ihl,← hs.totalLength] at hpres
  unfold unsent
  split
  · next htcp => exact udptcpCksum_tcp_ne_ones hpres (hs.nextProtoId.trans htcp)
  · next hn => exact udptcpCksum_udp_ne_zero (hs.nextProtoId.trans (h.proto.resolve_left hn))

/-- The checksum that fix_cksum stores is the one sendable word with which the fragment passes. -/
theorem passesWith_iff {x y : Byte} : PassesWith d x y ↔
    Endian.word 256 e x.toNat y.toNat=udptcpCksum e (store16 e d (l4CksumAt d) 0) := by
  have hle := h.le_l4CksumAt
  have hs : SameHeader d (store16 e d (l4CksumAt d) 0) := store16_sameHeader (.inr (by omega))
  have hbytes : ∀ b∈x.toNat::y.toNat::bytesAt (store16 e d (l4CksumAt d) 0) (l4Offset d) (fragLen d),
      b < 256 := by
    simp only [List.forall_mem_cons]
    exact ⟨x.isLt,y.isLt,bytesAt_lt⟩
  have hdvd := dvd_udptcpCksum (e:=e) (d:=store16 e d (l4CksumAt d) 0)
    (by rw [hs.ihl,hs.totalLength]; exact h.present)
  rw [hs.psdHdr,hs.l4Offset,hs.totalLength,hs.ihl] at hdvd
  change 2^16-1 ∣ hostSum e (psdHdr d) 0 12+hostSum e _ (l4Offset d) (fragLen d)+_ at hdvd
  have hpass : PassesWith d x y ↔ Endian.word 256 e x.toNat y.toNat≠unsent d ∧
      2^16-1 ∣ hostSum e (psdHdr d) 0 12+
        hostSum e (store16 e d (l4CksumAt d) 0) (l4Offset d) (fragLen d)+
        Endian.word 256 e x.toNat y.toNat := by
    rw [PassesWith,store16_big_zero (e:=e),sendable_iff (e:=e),
      h.verifies_fragPseudo_iff (e:=e) hbytes,words,List.sum_cons,Nat.add_left_comm,Nat.add_comm]
    rfl
  have hstored := h.cksum_ne_unsent (e:=e) hs
  have hunsent : unsent d=0 ∨ unsent d=2^16-1 := by
    unfold unsent
    split
    · exact .inr rfl
    · exact .inl rfl
  rw [hpass]
  constructor
  · rintro ⟨hne,hword⟩
    -- the two forms of zero: one is not sendable, the other is never stored
    have hlt : Endian.word 256 e x.toNat y.toNat < 2^16 := word_lt x.isLt y.isLt
    rcases eq_or_of_dvd_add hlt udptcpCksum_lt hword hdvd with heq | ⟨hx,hc⟩ | ⟨hx,hc⟩
    · exact heq
    all_goals
      rw [hx] at hne
      rw [hc] at hstored
      rcases hunsent with hu | hu <;> rw [hu] at hne hstored <;> contradiction
  · intro heq
    rw [heq]
    exact ⟨hstored,hdvd⟩

/-- Every byte after the IP header stays if and only if the frame's own bytes at the place of a
checksum are one. -/
theorem fixData_kept_iff (len : Nat) :
    (∀ i,l4Offset d ≤ i → i < len → fixData e d i=d i) ↔ Unharmed d len := by
  have hle := h.le_l4CksumAt
  have hpass (y : Byte) : PassesWith d (d (l4CksumAt d)) y ↔
      d (l4CksumAt d)=fixData e d (l4CksumAt d) ∧ y=fixData e d (l4CksumAt d+1) := by
    rw [h.passesWith_iff (e:=e),word_eq_iff udptcpCksum_lt,← h.fixData_field (k:=0) (by decide),
      ← h.fixData_field (k:=1) (by decide)]
    rfl
  constructor
  · intro hkept
    by_cases hend : len ≤ l4CksumAt d
    · exact .inl hend
    · refine .inr ⟨fixData e d (l4CksumAt d+1),fun hlen => hkept _ (by omega) hlen,(hpass _).mpr ?_⟩
      exact ⟨(hkept _ (by omega) (by omega)).symm,rfl⟩
  · intro hun i hi hlen
    by_cases hout : i≠l4CksumAt d ∧ i≠l4CksumAt d+1
    · exact fixData_out (by omega) hout
    · rcases hun with hend | ⟨y,hy,hp⟩
      · omega
      · obtain ⟨h0,h1⟩ := (hpass y).mp hp
        by_cases hfirst : i=l4CksumAt d
        · rw [hfirst,← h0]
        · have hsecond : i=l4CksumAt d+1 := by omega
          rw [hsecond,← h1,hy (by omega)]

/-- For a packet that holds the place, this is a receiver's check of the fragment as it is. -/
theorem unharmed_iff_verifies {len : Nat} (hin : l4CksumAt d+2 ≤ l4Offset d+fragLen d)
    (hlen : l4Offset d+fragLen d ≤ len) : Unharmed d len ↔
      Sendable d (d (l4CksumAt d)) (d (l4CksumAt d+1)) ∧
      Verifies (fragPseudo d++bytesAt d (l4Offset d) (fragLen d)) := by
  have hle := h.le_l4CksumAt
  have hall : ∀ b∈(d (l4CksumAt d)).toNat::(d (l4CksumAt d+1)).toNat::
      bytesAt (store16 .big d (l4CksumAt d) 0) (l4Offset d) (fragLen d),b < 256 := by
    simp only [List.forall_mem_cons]
    exact ⟨(d _).isLt,(d _).isLt,bytesAt_lt⟩
  obtain ⟨k,hk,heven⟩ : ∃ k,l4CksumAt d=l4Offset d+k ∧ k%2=0 := by
    unfold l4CksumAt
    split
    · exact ⟨16,rfl,rfl⟩
    · exact ⟨6,rfl,rfl⟩
  have hsum : hostSum .big d (l4Offset d) (fragLen d)=
      hostSum .big (store16 .big d (l4CksumAt d) 0) (l4Offset d) (fragLen d)+
        load16 .big d (l4CksumAt d) := by
    have hstore := hostSum_store16 (e:=.big) (d:=d) (o:=l4Offset d) (n:=fragLen d) heven
      (by omega) (load16_lt (e:=.big) (d:=d) (o:=l4Offset d+k))
    rw [store16_load16] at hstore
    rw [hk]
    exact hstore
  have hsame : PassesWith d (d (l4CksumAt d)) (d (l4CksumAt d+1)) ↔
      Sendable d (d (l4CksumAt d)) (d (l4CksumAt d+1)) ∧
      Verifies (fragPseudo d++bytesAt d (l4Offset d) (fragLen d)) := by
    rw [PassesWith,h.verifies_fragPseudo_iff (e:=.big) hall,
      h.verifies_fragPseudo_iff (e:=.big) bytesAt_lt,words,List.sum_cons,Nat.add_comm (Endian.word ..)]
    change _ ∧ _ ∣ _+(hostSum .big _ _ _+load16 .big d _) ↔ _ ∧ _ ∣ _+hostSum .big d _ _
    rw [hsum]
  rw [← hsame]
  constructor
  · rintro (hend | ⟨y,hy,hp⟩)
    · omega
    · rwa [hy (by omega)] at hp
  · intro hp
    exact .inr ⟨_,fun _ => rfl,hp⟩

end Fragment

end

namespace SameHeader

variable {d d' : Data} (h : SameHeader d d')
include h

theorem fragOffset : fragOffset d'=fragOffset d := by
  rw [Umanet.fragOffset,Umanet.fragOffset,h.be16_eq (by decide)]

theorem fragLen : fragLen d'=fragLen d := by
  rw [Umanet.fragLen,Umanet.fragLen,h.totalLength,h.ihl]

theorem last : Last d' ↔ Last d := by
  rw [Last,Last,h.be16_eq (by decide)]

theorem covers (k : Nat) : Covers d' k ↔ Covers d k := by
  rw [Covers,Covers,h.fragOffset,h.fragLen]

end SameHeader

theorem mapM_eq_some_iff {α β : Type} {f : α → Option β} {l : List α} {k : List β} :
    l.mapM f=some k ↔ l.map f=k.map some := by
  induction l generalizing k with
  | nil => cases k <;> simp
  | cons a l ih =>
    rw [List.mapM_cons,List.map_cons]
    cases k with
    | nil =>
      cases hb : f a <;> cases hk : l.mapM f <;> simp
    | cons b k =>
      simp only [Option.bind_eq_bind,Option.bind_eq_some_iff,Option.pure_def,Option.some.injEq,
        List.cons.injEq,List.map_cons]
      constructor
      · rintro ⟨c,hc,k',hk',rfl,rfl⟩
        exact ⟨hc,ih.mp hk'⟩
      · rintro ⟨hb,hk⟩
        exact ⟨b,hb,k,ih.mpr hk,rfl,rfl⟩

namespace Tiling

variable {n : Nat} {fs : List Data} (h : Tiling n fs)
include h

theorem reassembledLen (hn : 0 < n) : reassembledLen fs=some n := by
  obtain ⟨f,hf,hcov⟩ := h.covered (n-1) (by omega)
  have hlast : Last f := by
    have hend := h.within f hf
    unfold Covers at hcov
    exact (h.last f hf).mpr (by omega)
  cases hfind : fs.find? fun f => Last f with
  | none =>
    have hnone := List.find?_eq_none.mp hfind f hf
    exact absurd (decide_eq_true hlast) hnone
  | some g =>
    have hg := List.find?_some hfind
    simp only [decide_eq_true_eq] at hg
    rw [Umanet.reassembledLen,hfind,Option.map_some,(h.last g (List.mem_of_find?_eq_some hfind)).mp hg]

theorem reassembledByte {f : Data} (hf : f∈fs) {k : Nat} (hk : Covers f k) :
    reassembledByte fs k=some (f (l4Offset f+(k-fragOffset f))) := by
  cases hfind : fs.find? fun f => Covers f k with
  | none =>
    have hnone := List.find?_eq_none.mp hfind f hf
    exact absurd (decide_eq_true hk) hnone
  | some g =>
    have hg := List.find?_some hfind
    simp only [decide_eq_true_eq] at hg
    have hsymm : Std.Symm fun f f' : Data => ∀ k,¬(Covers f k ∧ Covers f' k) :=
      ⟨fun _ _ hd i hi => hd i hi.symm⟩
    have heq : g=f := by
      by_contra hne
      exact h.disjoint.forall (List.mem_of_find?_eq_some hfind) hf hne k ⟨hg,hk⟩
    rw [Umanet.reassembledByte,hfind,Option.map_some,heq]

/-- Reassembly gives a datagram if and only if every fragment has its bytes. -/
theorem reassemble_eq_iff (hn : 0 < n) {l : List Byte} (hl : l.length=n) :
    reassemble fs=some l ↔
      ∀ f∈fs,∀ k < fragLen f,l[fragOffset f+k]?=some (f (l4Offset f+k)) := by
  have hbyte : ∀ f∈fs,∀ k < fragLen f,Umanet.reassembledByte fs (fragOffset f+k)=
      some (f (l4Offset f+k)) := by
    intro f hf k hk
    have hb := h.reassembledByte hf (k:=fragOffset f+k) ⟨by omega,by omega⟩
    rwa [Nat.add_sub_cancel_left] at hb
  have hunfold : reassemble fs=some l ↔
      (List.range n).map (Umanet.reassembledByte fs)=l.map some := by
    rw [reassemble,h.reassembledLen hn]
    exact mapM_eq_some_iff
  rw [hunfold]
  constructor
  · intro heq f hf k hk
    have hat := congrArg (fun l => l[fragOffset f+k]?) heq
    have hlt : fragOffset f+k < n := by
      have hend := h.within f hf
      omega
    simp only [List.getElem?_map,List.getElem?_range hlt,Option.map_some,hbyte f hf k hk] at hat
    cases hget : l[fragOffset f+k]? with
    | none =>
      rw [hget] at hat
      cases hat
    | some b =>
      rw [hget,Option.map_some] at hat
      exact (Option.some.inj hat).symm
  · intro hfs
    apply List.ext_getElem?
    intro i
    by_cases hi : i < n
    · obtain ⟨f,hf,hcov⟩ := h.covered i hi
      obtain ⟨k,hk,rfl⟩ : ∃ k < fragLen f,i=fragOffset f+k := by
        unfold Covers at hcov
        exact ⟨i-fragOffset f,by omega,by omega⟩
      rw [List.getElem?_map,List.getElem?_map,List.getElem?_range hi,hfs f hf k hk,
        Option.map_some,Option.map_some,hbyte f hf k hk]
    · rw [List.getElem?_eq_none (by simp; omega),List.getElem?_eq_none (by simp; omega)]

theorem map {g : Data → Data} (hg : ∀ f∈fs,SameHeader f (g f)) : Tiling n (fs.map g) := by
  refine ⟨?_,?_,?_,?_⟩
  · intro k hk
    obtain ⟨f,hf,hcov⟩ := h.covered k hk
    exact ⟨g f,List.mem_map_of_mem hf,((hg f hf).covers k).mpr hcov⟩
  · apply List.pairwise_map.mpr
    apply h.disjoint.imp_of_mem
    intro f f' hf hf' hd k hk
    exact hd k ⟨((hg f hf).covers k).mp hk.1,((hg f' hf').covers k).mp hk.2⟩
  · intro f' hf'
    obtain ⟨f,hf,rfl⟩ := List.mem_map.mp hf'
    rw [(hg f hf).fragOffset,(hg f hf).fragLen]
    exact h.within f hf
  · intro f' hf'
    obtain ⟨f,hf,rfl⟩ := List.mem_map.mp hf'
    rw [(hg f hf).fragOffset,(hg f hf).fragLen,(hg f hf).last]
    exact h.last f hf

end Tiling

namespace Fragmentation

variable {d : Data} {fs : List Data} (h : Fragmentation d fs)
include h

/-- Fragments processed one by one, their headers kept, give the packet's payload if and only if
their payloads are kept. -/
theorem reassemble_map_iff (hn : 0 < fragLen d) {g : Data → Data}
    (hg : ∀ f∈fs,SameHeader f (g f)) : reassemble (fs.map g)=some (payload d) ↔
      ∀ f∈fs,∀ k < fragLen f,g f (l4Offset f+k)=f (l4Offset f+k) := by
  rw [(h.toTiling.map hg).reassemble_eq_iff hn (by simp [payload]),List.forall_mem_map]
  have hat : ∀ f∈fs,∀ k < fragLen f,(payload d)[fragOffset f+k]?=some (f (l4Offset f+k)) := by
    intro f hf k hk
    have hend := h.within f hf
    rw [payload,List.getElem?_map,List.getElem?_range (by omega),Option.map_some,h.bytes f hf k hk]
  constructor
  · intro heq f hf k hk
    have hb := heq f hf k (by rw [(hg f hf).fragLen]; exact hk)
    rw [(hg f hf).fragOffset,hat f hf k hk,(hg f hf).l4Offset] at hb
    exact (Option.some.inj hb).symm
  · intro heq f hf k hk
    rw [(hg f hf).fragLen] at hk
    rw [(hg f hf).fragOffset,hat f hf k hk,(hg f hf).l4Offset,heq f hf k hk]

theorem reassemble_eq (hn : 0 < fragLen d) : reassemble fs=some (payload d) := by
  have hid := (h.reassemble_map_iff hn (g:=id) (fun f _ _ _ _ _ => rfl)).mpr
    (fun f _ k _ => rfl)
  rwa [List.map_id] at hid

end Fragmentation

/-- Every fragment of a datagram keeps the bytes after its IP header, and with them the receiver
its datagram, if and only if its own bytes at the place of a checksum lie behind the end or are
the checksum of the fragment; if the packet holds the place: if the fragment as it is verifies as
a whole segment. -/
theorem fix_cksum_fragments_iff (e : Endian) :
    (∀ (m : Mbuf) (len : Nat),Fragment m.data →
      ((∀ i,l4Offset m.data ≤ i → i < len → (fixCksum e m).data i=m.data i) ↔
        Unharmed m.data len) ∧
      (l4CksumAt m.data+2 ≤ l4Offset m.data+fragLen m.data →
        l4Offset m.data+fragLen m.data ≤ len →
        (Unharmed m.data len ↔
          Sendable m.data (m.data (l4CksumAt m.data)) (m.data (l4CksumAt m.data+1)) ∧
          Verifies (fragPseudo m.data++bytesAt m.data (l4Offset m.data) (fragLen m.data))))) ∧
    (∀ (d : Data) (len : Nat) (ms : List Mbuf),Segment d len →
      Fragmentation d (ms.map Mbuf.data) →
      reassemble (ms.map Mbuf.data)=some (payload d) ∧
      (reassemble (ms.map fun m => (fixCksum e m).data)=some (payload d) ↔
        ∀ m∈ms,Unharmed m.data (14+totalLength m.data))) := by
  have hdata : ∀ m : Mbuf,Fragment m.data → (fixCksum e m).data=fixData e m.data := by
    intro m h
    rw [fixCksum_l4 h.ipv4 h.ihl_ge h.proto]
  constructor
  · intro m len h
    rw [hdata m h]
    exact ⟨h.fixData_kept_iff len,h.unharmed_iff_verifies⟩
  · intro d len ms hseg h
    have hn : 0 < fragLen d := by
      obtain ⟨k,-,-,-,hk⟩ := hseg.exists_l4CksumAt
      unfold fragLen
      omega
    have hmap : (ms.map fun m => (fixCksum e m).data)=(ms.map Mbuf.data).map (fixData e) := by
      rw [List.map_map]
      apply List.map_congr_left
      intro m hm
      exact hdata m (h.fragment _ (List.mem_map_of_mem hm))
    refine ⟨h.reassemble_eq hn,?_⟩
    rw [hmap,h.reassemble_map_iff hn (fun f hf => (h.fragment f hf).fixData_sameHeader),
      List.forall_mem_map]
    refine forall₂_congr fun m hm => ?_
    rw [← (h.fragment _ (List.mem_map_of_mem hm)).fixData_kept_iff]
    unfold fragLen l4Offset
    constructor
    · intro hkept i hi hlen
      have hb := hkept (i-(14+ihl m.data*4)) (by omega)
      rwa [Nat.add_sub_cancel' hi] at hb
    · intro hkept k hk
      exact hkept _ (by omega) (by omega)

/-- The last eight bytes of a TCP datagram: a TCP header's checksum would be behind them. -/
def tailFragment : Data := fun o =>
  match o with
  | 12 => 8 | 14 => 0x45 | 17 => 28 | 21 => 9 | 23 => 6
  | _ => ipv4Frame 5 9 o

theorem fix_cksum_fragments_tail : Fragment tailFragment ∧ ∀ i,34 ≤ i → i < 42 →
    (fixCksum .little ⟨0,0,0,0,0,tailFragment⟩).data i=tailFragment i := by
  have h : Fragment tailFragment := ⟨by decide,by decide,by decide,by decide,by decide⟩
  refine ⟨h,((fix_cksum_fragments_iff .little).1 ⟨0,0,0,0,0,tailFragment⟩ 42 h).1.mpr (.inl ?_)⟩
  have hat : l4CksumAt tailFragment=50 := by decide
  rw [hat]
  decide

/-- A UDP datagram of 24 bytes: eight of header, sixteen of data. -/
def wholeDatagram : Data := fun o =>
  match o with
  | 12 => 8 | 14 => 0x45 | 17 => 44 | 19 => 7 | 22 => 64 | 23 => 17 | 24 => 0x31 | 25 => 0x5b
  | 26 => 192 | 27 => 168 | 28 => 100 | 29 => 5 | 30 => 192 | 31 => 168 | 32 => 100 | 33 => 9
  | 39 => 24 | 40 => 0x76 | 41 => 0x16
  | 42 => 1 | 43 => 2 | 44 => 3 | 45 => 4 | 46 => 5 | 47 => 6 | 48 => 7 | 49 => 8
  | 50 => 9 | 51 => 10 | 52 => 11 | 53 => 12 | 54 => 13 | 55 => 14 | 56 => 15 | 57 => 16
  | _ => 0

def firstFragment : Data := fun o =>
  match o with
  | 17 => 36 | 20 => 0x20 | 24 => 0x11 | 25 => 0x63
  | _ => wholeDatagram o

def lastFragment : Data := fun o =>
  match o with
  | 17 => 28 | 21 => 2 | 24 => 0x31 | 25 => 0x69
  | _ => if o < 34 then wholeDatagram o else if o < 42 then wholeDatagram (o+16) else 0

theorem wholeDatagram_fragmentation : Fragmentation wholeDatagram [firstFragment,lastFragment] := by
  have hfirst : fragOffset firstFragment=0 ∧ fragLen firstFragment=16 := by decide
  have hlast : fragOffset lastFragment=16 ∧ fragLen lastFragment=8 := by decide
  refine ⟨⟨by decide,?_,by decide,by decide⟩,?_,by decide,by decide⟩
  · simp only [List.pairwise_cons,List.mem_singleton,forall_eq,Covers,hfirst,hlast]
    refine ⟨?_,by simp⟩
    intro k hk
    omega
  · intro f hf
    rcases List.mem_cons.mp hf with rfl | hf
    · exact ⟨by decide,by decide,by decide,by decide,by decide⟩
    · rw [List.mem_singleton.mp hf]
      exact ⟨by decide,by decide,by decide,by decide,by decide⟩

/-- The datagram that arrives has another checksum and other data. -/
theorem fix_cksum_damages_fragments : Segment wholeDatagram 58 ∧ SegmentVerifies wholeDatagram ∧
    Fragmentation wholeDatagram [firstFragment,lastFragment] ∧
    HeaderVerifies wholeDatagram ∧ HeaderVerifies firstFragment ∧ HeaderVerifies lastFragment ∧
    payload wholeDatagram=
      [0,0,0,0,0,24,0x76,0x16,1,2,3,4,5,6,7,8,9,10,11,12,13,14,15,16] ∧
    reassemble [(fixCksum .little ⟨0,0,0,0,0,firstFragment⟩).data,
        (fixCksum .little ⟨0,0,0,0,0,lastFragment⟩).data]=some
      [0,0,0,0,0,24,0xa6,0x52,1,2,3,4,5,6,7,8,9,10,11,12,13,14,0x95,0x62] := by
  refine ⟨⟨by decide,by decide,by decide,by decide,.inr ⟨by decide,by decide,by decide⟩⟩,?_,
    wholeDatagram_fragmentation,?_,?_,?_,by decide,by decide +kernel⟩
  · unfold SegmentVerifies Verifies
    decide +kernel
  all_goals
    unfold HeaderVerifies Verifies
    decide +kernel

end Umanet
