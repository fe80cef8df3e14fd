import Umanet.Framework.OnesComplement
import Umanet.Fast.Classify

namespace Umanet

open Framework

/-- A uint16_t in the memory of the host. -/
def load16 (e : Endian) (d : Data) (o : Nat) : Nat := e.word 256 (d o).toNat (d (o+1)).toNat

def byte16 (x : Nat) : Endian → Nat → Byte
  | .little,k => BitVec.ofNat 8 (x/256^k)
  | .big,k => BitVec.ofNat 8 (x/256^(1-k))

def store16 (e : Endian) (d : Data) (o x : Nat) : Data := store d o 2 (byte16 x e)

/-- `ip->total_length` -/
def totalLength (d : Data) : Nat := (be16 d 16).toNat

/-- The loop of __rte_raw_cksum over n words from o on. -/
def rawCksumLoop (e : Endian) (d : Data) : Nat → Nat → Nat → Nat
  | 0,_,sum => sum
  | n+1,o,sum => rawCksumLoop e d n (o+2) ((sum+load16 e d o)%2^32)

/-- `__rte_raw_cksum`: an odd last byte is the first of a word whose other byte is zero. -/
def rawCksumSum (e : Endian) (d : Data) (o len : Nat) : Nat :=
  let sum := rawCksumLoop e d (len/2) o 0
  if len%2=1 then (sum+e.word 256 (d (o+2*(len/2))).toNat 0)%2^32 else sum

/-- `((sum & 0xffff0000) >> 16) + (sum & 0xffff)` -/
def addCarry (sum : Nat) : Nat := (sum/2^16+sum%2^16)%2^32

/-- rte_raw_cksum with __rte_raw_cksum_reduce -/
def rawCksum (e : Endian) (d : Data) (o len : Nat) : Nat :=
  addCarry (addCarry (rawCksumSum e d o len))%2^16

/-- `~x` of a uint16_t -/
def complement16 (x : Nat) : Nat := 2^16-1-x

/-- rte_ipv4_cksum -/
def ipv4Cksum (e : Endian) (d : Data) : Nat := complement16 (rawCksum e d 14 (ihl d*4))

/-- `psd_hdr.len` as rte_ipv4_phdr_cksum computes it. -/
def psdLen (d : Data) : Nat := (totalLength d+2^32-ihl d*4)%2^32%2^16

/-- `struct ipv4_psd_header`: addresses, zero, protocol, length in network order. -/
def psdHdr (d : Data) : Data := fun i =>
  if i < 8 then d (26+i)
  else if i=9 then nextProtoId d
  else if i=10 then BitVec.ofNat 8 (psdLen d/256)
  else if i=11 then BitVec.ofNat 8 (psdLen d)
  else 0

/-- rte_ipv4_phdr_cksum, without offload flags -/
def phdrCksum (e : Endian) (d : Data) : Nat := rawCksum e (psdHdr d) 0 12

/-- `__rte_ipv4_udptcp_cksum` -/
def udptcpCksumRaw (e : Endian) (d : Data) : Nat :=
  if totalLength d < ihl d*4 then 0
  else addCarry ((rawCksum e d (l4Offset d) (totalLength d-ihl d*4)+phdrCksum e d)%2^32)%2^16

/-- rte_ipv4_udptcp_cksum: a UDP checksum that comes out as zero is sent as all ones. -/
def udptcpCksum (e : Endian) (d : Data) : Nat :=
  let cksum := complement16 (udptcpCksumRaw e d)
  if cksum=0 ∧ nextProtoId d=ipprotoUdp then 2^16-1 else cksum

/-- A checksum field is set to zero, then to what is computed from the frame. -/
def fillCksum (e : Endian) (o : Nat) (cksum : Data → Nat) (d : Data) : Data :=
  let d := store16 e d o 0
  store16 e d o (cksum d)

/-- The fields of an rte_mbuf that fix_cksum writes, and the frame. -/
structure Mbuf where
  olFlags : BitVec 64
  tsoSegsz : Nat
  l2Len : Nat
  l3Len : Nat
  l4Len : Nat
  data : Data

/-- `RTE_MBUF_F_TX_TCP_SEG`, `_IPV4`, `_IP_CKSUM`, `_TCP_CKSUM` and `_UDP_CKSUM` -/
def txFlags : BitVec 64 :=
  (1 <<< 50) ||| (1 <<< 55) ||| (1 <<< 54) ||| (1 <<< 52) ||| (3 <<< 52)

/-- fix_cksum. The length fields of the mbuf have 7, 9 and 8 bits. -/
def fixCksum (e : Endian) (m : Mbuf) : Mbuf :=
  let m := {m with olFlags:=m.olFlags &&& ~~~txFlags,tsoSegsz:=0}
  if etherType m.data=etherTypeIpv4 then
    let m := {m with l2Len:=14%2^7,l3Len:=ihl m.data*4%2^9}
    let d := fillCksum e 24 (ipv4Cksum e) m.data
    if nextProtoId d=ipprotoTcp then {m with
      l4Len:=(d (l4Offset d+12) >>> 4).toNat*4%2^8
      data:=fillCksum e (l4Offset d+16) (udptcpCksum e) d}
    else if nextProtoId d=ipprotoUdp then {m with
      l4Len:=8%2^8
      data:=fillCksum e (l4Offset d+6) (udptcpCksum e) d}
    else {m with l4Len:=0,data:=d}
  else {m with l2Len:=0,l3Len:=0,l4Len:=0}

def bytesAt (d : Data) : Nat → Nat → List Nat
  | _,0 => []
  | o,n+1 => (d o).toNat::bytesAt d (o+1) n

/-- What a receiver checks: the one's-complement sum of the words in network order, the
checksum field included, is all ones. -/
def Verifies (l : List Nat) : Prop := ocSum (2^16) (words 256 .big l)=2^16-1

def HeaderVerifies (d : Data) : Prop := Verifies (bytesAt d 14 (ihl d*4))

/-- Length of the TCP segment, or `dgram_len` of a UDP datagram. -/
def segmentLen (d : Data) : Nat :=
  if nextProtoId d=ipprotoUdp then (be16 d (l4Offset d+4)).toNat else totalLength d-ihl d*4

/-- The pseudo-header a receiver puts before the segment. -/
def pseudoHeader (d : Data) : List Nat :=
  bytesAt d 26 8++[0,(nextProtoId d).toNat,segmentLen d/256,segmentLen d%256]

def SegmentVerifies (d : Data) : Prop :=
  Verifies (pseudoHeader d++bytesAt d (l4Offset d) (segmentLen d))

def l4CksumAt (d : Data) : Nat := l4Offset d+if nextProtoId d=ipprotoTcp then 16 else 6

def l4HeaderLen (d : Data) : Nat :=
  if nextProtoId d=ipprotoTcp then (d (l4Offset d+12)).toNat/16*4 else 8

/-- A frame of len bytes with an unfragmented IPv4 packet that fills it and holds a TCP or
UDP header at least. -/
structure Segment (d : Data) (len : Nat) : Prop where
  ipv4 : etherType d=etherTypeIpv4
  ihl_ge : 5 ≤ ihl d
  present : len=14+totalLength d
  unfragmented : be16 d 20 &&& 0x3fff=0
  l4 : (nextProtoId d=ipprotoTcp ∧ l4Offset d+20 ≤ len) ∨
    (nextProtoId d=ipprotoUdp ∧ l4Offset d+8 ≤ len ∧ (be16 d (l4Offset d+4)).toNat=len-l4Offset d)

section
variable {e : Endian} {d : Data} {o n k x y : Nat}

theorem load16_store16 (hx : x < 2^16) : load16 e (store16 e d o x) o=x := by
  have h0 := store_in d o 2 (byte16 x e) (k:=0) (by decide)
  have h1 := store_in d o 2 (byte16 x e) (k:=1) (by decide)
  rw [Nat.add_zero] at h0
  rw [load16,store16,h0,h1]
  cases e with
  | little =>
    simp only [Endian.word,byte16,BitVec.toNat_ofNat]
    omega
  | big =>
    simp only [Endian.word,byte16,BitVec.toNat_ofNat]
    omega

theorem store16_out {i : Nat} (h : i < o ∨ o+2 ≤ i) : store16 e d o x i=d i := store_out d o 2 _ h

theorem store16_store16 : store16 e (store16 e d o x) o y=store16 e d o y := by
  funext i
  by_cases hi : o ≤ i ∧ i < o+2
  · simp only [store16,store,if_pos hi]
  · rw [store16_out (by omega),store16_out (by omega),store16_out (by omega)]

theorem store16_comm {o' : Nat} (h : o+2 ≤ o' ∨ o'+2 ≤ o) :
    store16 e (store16 e d o x) o' y=store16 e (store16 e d o' y) o x := by
  funext i
  by_cases hi : o ≤ i ∧ i < o+2
  · rw [store16_out (by omega)]
    simp only [store16,store,if_pos hi]
  · rw [store16_out (o:=o) (by omega)]
    by_cases hi' : o' ≤ i ∧ i < o'+2
    · simp only [store16,store,if_pos hi']
    · rw [store16_out (by omega),store16_out (by omega),store16_out (by omega)]

theorem fillCksum_fillCksum (cksum : Data → Nat) :
    fillCksum e o cksum (fillCksum e o cksum d)=fillCksum e o cksum d := by
  have hzero : store16 e (fillCksum e o cksum d) o 0=store16 e d o 0 := by
    rw [fillCksum,store16_store16,store16_store16]
  rw [fillCksum,hzero]
  rfl

/-- A store that does not change what is computed is not seen by it. -/
theorem fillCksum_store16 {cksum : Data → Nat} {o' : Nat} (h : o+2 ≤ o')
    (hc : cksum (store16 e (store16 e d o 0) o' x)=cksum (store16 e d o 0)) :
    fillCksum e o cksum (store16 e d o' x)=store16 e (fillCksum e o cksum d) o' x := by
  have hcomm : store16 e (store16 e d o' x) o 0=store16 e (store16 e d o 0) o' x :=
    store16_comm (.inr h)
  simp only [fillCksum]
  rw [hcomm,hc,store16_comm (.inr h)]

theorem bytesAt_length : (bytesAt d o n).length=n := by
  induction n generalizing o with
  | zero => rfl
  | succ n ih => rw [bytesAt,List.length_cons,ih]

theorem bytesAt_lt : ∀ b∈bytesAt d o n,b < 256 := by
  induction n generalizing o with
  | zero =>
    intro b hb
    cases hb
  | succ n ih =>
    intro b hb
    rcases List.mem_cons.mp hb with rfl | hb
    · exact (d o).isLt
    · exact ih b hb

theorem bytesAt_append (m : Nat) : bytesAt d o (n+m)=bytesAt d o n++bytesAt d (o+n) m := by
  induction n generalizing o with
  | zero => simp [bytesAt]
  | succ n ih =>
    rw [Nat.succ_add,bytesAt,bytesAt,ih,List.cons_append,Nat.add_assoc o 1 n,Nat.add_comm 1 n]

theorem mem_bytesAt {i : Nat} (h : i < n) : (d (o+i)).toNat∈bytesAt d o n := by
  induction n generalizing o i with
  | zero => omega
  | succ n ih =>
    cases i with
    | zero => exact List.mem_cons_self
    | succ i =>
      have hi := ih (o:=o+1) (i:=i) (by omega)
      rw [Nat.add_assoc,Nat.add_comm 1 i] at hi
      exact List.mem_cons_of_mem _ hi

theorem bytesAt_congr {d' : Data} {o' : Nat} (h : ∀ i < n,d' (o'+i)=d (o+i)) :
    bytesAt d' o' n=bytesAt d o n := by
  induction n generalizing o o' with
  | zero => rfl
  | succ n ih =>
    rw [bytesAt,bytesAt]
    have h0 := h 0 (Nat.succ_pos n)
    rw [Nat.add_zero,Nat.add_zero] at h0
    rw [h0,ih]
    intro i hi
    have hi' := h (i+1) (by omega)
    rwa [Nat.add_comm i 1,← Nat.add_assoc,← Nat.add_assoc] at hi'

/-- Sum of the words of a piece of a frame, in the order of the host. -/
def hostSum (e : Endian) (d : Data) (o n : Nat) : Nat := (words 256 e (bytesAt d o n)).sum

theorem hostSum_split (hk : k%2=0) (hn : k+2 ≤ n) : hostSum e d o n=
    hostSum e d o k+load16 e d (o+k)+hostSum e d (o+k+2) (n-k-2) := by
  obtain ⟨m,rfl⟩ : ∃ m,n=k+(2+m) := ⟨n-k-2,by omega⟩
  have hm : k+(2+m)-k-2=m := by omega
  have hword : (words 256 e (bytesAt d (o+k) 2)).sum=load16 e d (o+k) := by
    simp [bytesAt,words,load16]
  simp only [hostSum]
  rw [hm,bytesAt_append,words_append (by rw [bytesAt_length]; exact hk),bytesAt_append,
    words_append (by rw [bytesAt_length]),List.sum_append,List.sum_append,hword]
  omega

theorem hostSum_store16 (hk : k%2=0) (hn : k+2 ≤ n) (hx : x < 2^16) :
    hostSum e (store16 e d (o+k) x) o n=hostSum e (store16 e d (o+k) 0) o n+x := by
  have hleft : ∀ y,bytesAt (store16 e d (o+k) y) o k=bytesAt d o k := by
    intro y
    apply bytesAt_congr
    intro i hi
    exact store16_out (by omega)
  have hright : ∀ y,bytesAt (store16 e d (o+k) y) (o+k+2) (n-k-2)=bytesAt d (o+k+2) (n-k-2) := by
    intro y
    apply bytesAt_congr
    intro i hi
    exact store16_out (by omega)
  rw [hostSum_split hk hn,hostSum_split (d:=store16 e d (o+k) 0) hk hn,load16_store16 hx,
    load16_store16 (by decide),hostSum,hostSum,hostSum,hostSum,hleft,hleft,hright,hright]
  omega

theorem load16_lt : load16 e d o < 2^16 := word_lt (d o).isLt (d (o+1)).isLt

theorem hostSum_succ : hostSum e d o (2*(n+1))=load16 e d o+hostSum e d (o+2) (2*n) := by
  rw [hostSum_split (k:=0) rfl (by omega),show 2*(n+1)-0-2=2*n by omega,Nat.add_zero]
  simp [hostSum,bytesAt,words]

theorem hostSum_le : hostSum e d o (2*n) ≤ n*2^16 := by
  induction n generalizing o with
  | zero => simp [hostSum,bytesAt,words]
  | succ n ih =>
    have hword := load16_lt (e:=e) (d:=d) (o:=o)
    have hrest := ih (o:=o+2)
    rw [hostSum_succ]
    omega

theorem rawCksumLoop_eq {sum : Nat} (h : sum+n*2^16 < 2^32) :
    rawCksumLoop e d n o sum=sum+hostSum e d o (2*n) := by
  induction n generalizing o sum with
  | zero => rfl
  | succ n ih =>
    have hword := load16_lt (e:=e) (d:=d) (o:=o)
    rw [rawCksumLoop,Nat.mod_eq_of_lt (by omega),ih (by omega),hostSum_succ]
    omega

theorem rawCksumSum_eq (h : n < 2^16) : rawCksumSum e d o n=hostSum e d o n := by
  have hle := hostSum_le (e:=e) (d:=d) (o:=o) (n:=n/2)
  have hloop : rawCksumLoop e d (n/2) o 0=hostSum e d o (2*(n/2)) := by
    rw [rawCksumLoop_eq (by omega),Nat.zero_add]
  simp only [rawCksumSum]
  rw [hloop]
  split
  · next hodd =>
    have hlast : e.word 256 (d (o+2*(n/2))).toNat 0 < 2^16 :=
      word_lt (d (o+2*(n/2))).isLt (by decide)
    rw [Nat.mod_eq_of_lt (by omega)]
    conv_rhs => rw [hostSum,show n=2*(n/2)+1 by omega,bytesAt_append,
      words_append (by rw [bytesAt_length]; omega),List.sum_append]
    simp [hostSum,bytesAt,words]
  · next heven => rw [show 2*(n/2)=n by omega]

theorem hostSum_lt (h : n < 2^16) : hostSum e d o n < 2^32 := by
  rw [← rawCksumSum_eq h,rawCksumSum]
  have hle := hostSum_le (e:=e) (d:=d) (o:=o) (n:=n/2)
  split
  · exact Nat.mod_lt _ (by decide)
  · rw [rawCksumLoop_eq (by omega)]
    omega

theorem addCarry_eq (h : n < 2^32) : addCarry n=foldCarry (2^16) n := by
  unfold addCarry foldCarry
  omega

/-- The reduced sum has 16 bits, is the sum up to end-around carry, and is zero for a zero sum
only. -/
theorem rawCksum_spec (h : n < 2^16) :
    rawCksum e d o n ≤ 2^16-1 ∧ rawCksum e d o n ≡ hostSum e d o n [MOD 2^16-1] ∧
      (rawCksum e d o n=0 ↔ hostSum e d o n=0) := by
  have hlt := hostSum_lt (e:=e) (d:=d) (o:=o) h
  have honce : foldCarry (2^16) (hostSum e d o n) ≤ 2*(2^16-1) := by
    unfold foldCarry
    omega
  -- the second fold takes the one carry the first can leave
  have htwice : foldCarry (2^16) (foldCarry (2^16) (hostSum e d o n)) ≤ 2^16-1 := by
    generalize foldCarry (2^16) (hostSum e d o n)=m at honce
    unfold foldCarry
    omega
  rw [rawCksum,rawCksumSum_eq h,addCarry_eq hlt,addCarry_eq (by omega),
    Nat.mod_eq_of_lt (by omega)]
  have hmod := foldCarry_modEq (M:=2^16) (by decide)
  exact ⟨htwice,(hmod _).trans (hmod _),foldCarry_eq_zero_iff.trans foldCarry_eq_zero_iff⟩

theorem rawCksum_congr {d' : Data} (hn : n < 2^16) (h : bytesAt d' o n=bytesAt d o n) :
    rawCksum e d' o n=rawCksum e d o n := by
  rw [rawCksum,rawCksum,rawCksumSum_eq hn,rawCksumSum_eq hn,hostSum,hostSum,h]

theorem complement16_lt : complement16 x < 2^16 := by
  unfold complement16
  omega

theorem udptcpCksum_lt : udptcpCksum e d < 2^16 := by
  simp only [udptcpCksum]
  split
  · decide
  · exact complement16_lt

theorem ihl_le (d : Data) : ihl d ≤ 15 := by
  rw [ihl,BitVec.toNat_and]
  exact Nat.and_le_right

/-- The field makes the header's sum zero up to end-around carry. -/
theorem dvd_ipv4Cksum : 2^16-1 ∣ hostSum e d 14 (ihl d*4)+ipv4Cksum e d := by
  have hihl := ihl_le d
  obtain ⟨hle,hmod,-⟩ := rawCksum_spec (e:=e) (d:=d) (o:=14) (n:=ihl d*4) (by omega)
  exact dvd_add_complement hle hmod

theorem udptcpCksumRaw_spec (h : ihl d*4 ≤ totalLength d) :
    udptcpCksumRaw e d ≤ 2^16-1 ∧
    udptcpCksumRaw e d ≡ hostSum e (psdHdr d) 0 12+
      hostSum e d (l4Offset d) (totalLength d-ihl d*4) [MOD 2^16-1] ∧
    (udptcpCksumRaw e d=0 → hostSum e (psdHdr d) 0 12=0) := by
  have hlen : totalLength d < 2^16 := (be16 d 16).isLt
  obtain ⟨hle,hmod,-⟩ := rawCksum_spec (e:=e) (d:=d) (o:=l4Offset d)
    (n:=totalLength d-ihl d*4) (by omega)
  obtain ⟨hle',hmod',hzero⟩ := rawCksum_spec (e:=e) (d:=psdHdr d) (o:=0) (n:=12) (by decide)
  have hsmall : rawCksum e d (l4Offset d) (totalLength d-ihl d*4)+rawCksum e (psdHdr d) 0 12 <
      2^32 := by omega
  have hraw : udptcpCksumRaw e d=foldCarry (2^16)
      (rawCksum e d (l4Offset d) (totalLength d-ihl d*4)+rawCksum e (psdHdr d) 0 12) := by
    rw [udptcpCksumRaw,if_neg (by omega),phdrCksum,Nat.mod_eq_of_lt hsmall,addCarry_eq hsmall]
    apply Nat.mod_eq_of_lt
    unfold foldCarry
    omega
  rw [hraw]
  refine ⟨?_,?_,fun hz => hzero.mp ?_⟩
  · unfold foldCarry
    omega
  · rw [Nat.add_comm (hostSum e (psdHdr d) 0 12)]
    exact (foldCarry_modEq (by decide) _).trans (hmod.add hmod')
  · exact Nat.eq_zero_of_add_eq_zero_left (foldCarry_eq_zero_iff.mp hz)

/-- The field makes the sum of pseudo-header and segment zero up to end-around carry; sending
all ones for zero does not change that. -/
theorem dvd_udptcpCksum (h : ihl d*4 ≤ totalLength d) :
    2^16-1 ∣ hostSum e (psdHdr d) 0 12+hostSum e d (l4Offset d) (totalLength d-ihl d*4)+
      udptcpCksum e d := by
  obtain ⟨hfold,hsum,-⟩ := udptcpCksumRaw_spec (e:=e) h
  have hdvd := dvd_add_complement hfold hsum
  simp only [udptcpCksum]
  split
  · next hzero =>
    rw [show 2^16-1-udptcpCksumRaw e d=0 from hzero.1,Nat.add_zero] at hdvd
    exact Nat.dvd_add hdvd (Nat.dvd_refl _)
  · exact hdvd

theorem udptcpCksum_udp_ne_zero (hudp : nextProtoId d=ipprotoUdp) : udptcpCksum e d≠0 := by
  simp only [udptcpCksum]
  split
  · decide
  · next hn => exact fun hzero => hn ⟨hzero,hudp⟩

/-- The protocol number is in the sum, so that TCP has no checksum of all ones. -/
theorem udptcpCksum_tcp_ne_ones (h : ihl d*4 ≤ totalLength d) (htcp : nextProtoId d=ipprotoTcp) :
    udptcpCksum e d≠2^16-1 := by
  obtain ⟨hfold,-,hzero⟩ := udptcpCksumRaw_spec (e:=e) h
  have hne : hostSum e (psdHdr d) 0 12≠0 := by
    intro hz
    have hproto := (sum_words_eq_zero_iff (by decide) _).mp hz _
      (mem_bytesAt (d:=psdHdr d) (o:=0) (i:=9) (by decide))
    have hat : psdHdr d (0+9)=ipprotoTcp := htcp
    rw [hat] at hproto
    exact absurd hproto (by decide)
  simp only [udptcpCksum]
  rw [if_neg fun hc => by rw [htcp] at hc; exact absurd hc.2 (by decide),complement16]
  intro hones
  exact hne (hzero (by omega))

/-- A receiver's check does not depend on the order of bytes in the host that summed. -/
theorem verifies_iff_dvd {l : List Nat} (hlt : ∀ b∈l,b < 256) {b : Nat} (hb : b∈l) (hne : b≠0) :
    Verifies l ↔ 2^16-1 ∣ (words 256 e l).sum := by
  have hwords : ∀ w∈words 256 .big l,w < 2^16 := words_lt hlt
  rw [Verifies,ocSum_eq_iff (by decide) hwords]
  constructor
  · rintro ⟨hdvd,-⟩
    exact dvd_sum_words (by decide) hdvd e
  · intro hdvd
    refine ⟨dvd_sum_words (by decide) hdvd .big,?_⟩
    intro hzero
    exact hne ((sum_words_eq_zero_iff (by decide) l).mp hzero b hb)

theorem hostSum_fillCksum {cksum : Data → Nat} (hk : k%2=0) (hn : k+2 ≤ n)
    (hx : cksum (store16 e d (o+k) 0) < 2^16) : hostSum e (fillCksum e (o+k) cksum d) o n=
    hostSum e (store16 e d (o+k) 0) o n+cksum (store16 e d (o+k) 0) := by
  rw [fillCksum,hostSum_store16 hk hn hx,store16_store16]

theorem be16_toNat : (be16 d o).toNat=load16 .big d o := by
  rw [be16,BitVec.toNat_append,← Nat.shiftLeft_add_eq_or_of_lt (d (o+1)).isLt,Nat.shiftLeft_eq,
    load16,Endian.word]
  omega

theorem load16_eq_zero_iff (e' : Endian) : load16 e d o=0 ↔ load16 e' d o=0 :=
  (word_eq_zero_iff (by decide)).trans (word_eq_zero_iff (by decide)).symm

end

/-- The two frames have the same IP header, options and checksum apart. -/
def SameHeader (d d' : Data) : Prop := ∀ i < 34,i≠24 → i≠25 → d' i=d i

namespace SameHeader

variable {d d' : Data} (h : SameHeader d d')
include h

theorem trans {f : Data} (h' : SameHeader d' f) : SameHeader d f := fun i hi h24 h25 =>
  (h' i hi h24 h25).trans (h i hi h24 h25)

theorem be16_eq {o : Nat} (ho : o+2 ≤ 24) : be16 d' o=be16 d o := by
  rw [be16,be16,h o (by omega) (by omega) (by omega),h (o+1) (by omega) (by omega) (by omega)]

theorem etherType : etherType d'=etherType d := h.be16_eq (by decide)

theorem ihl : ihl d'=ihl d := by
  rw [Umanet.ihl,Umanet.ihl,h 14 (by decide) (by decide) (by decide)]

theorem l4Offset : l4Offset d'=l4Offset d := by rw [Umanet.l4Offset,Umanet.l4Offset,h.ihl]

theorem nextProtoId : nextProtoId d'=nextProtoId d := h 23 (by decide) (by decide) (by decide)

theorem l4CksumAt : l4CksumAt d'=l4CksumAt d := by
  rw [Umanet.l4CksumAt,Umanet.l4CksumAt,h.l4Offset,h.nextProtoId]

theorem totalLength : totalLength d'=totalLength d := by
  rw [Umanet.totalLength,Umanet.totalLength,h.be16_eq (by decide)]

theorem psdHdr : psdHdr d'=psdHdr d := by
  funext i
  simp only [Umanet.psdHdr,psdLen]
  rw [h.ihl,h.totalLength,h.nextProtoId]
  split
  · exact h _ (by omega) (by omega) (by omega)
  · rfl

end SameHeader

section
variable {e : Endian} {d : Data} {o x len : Nat}

theorem store16_sameHeader (h : o=24 ∨ 34 ≤ o) : SameHeader d (store16 e d o x) :=
  fun _ _ _ _ => store16_out (by omega)

theorem fillCksum_eq_store16 (cksum : Data → Nat) :
    fillCksum e o cksum d=store16 e d o (cksum (store16 e d o 0)) := store16_store16

theorem fillCksum_sameHeader (h : o=24 ∨ 34 ≤ o) (cksum : Data → Nat) :
    SameHeader d (fillCksum e o cksum d) := by
  rw [fillCksum_eq_store16]
  exact store16_sameHeader h

theorem ipv4Cksum_store16 (h : 34 ≤ o) (hl : l4Offset d ≤ o) :
    ipv4Cksum e (store16 e d o x)=ipv4Cksum e d := by
  have hihl := ihl_le d
  rw [ipv4Cksum,ipv4Cksum,(store16_sameHeader (.inr h)).ihl]
  congr 1
  apply rawCksum_congr (by omega)
  apply bytesAt_congr
  intro i hi
  unfold l4Offset at hl
  exact store16_out (by omega)

/-- What fix_cksum makes of the frame of a TCP or UDP packet. -/
def fixData (e : Endian) (d : Data) : Data :=
  fillCksum e (l4CksumAt d) (udptcpCksum e) (fillCksum e 24 (ipv4Cksum e) d)

theorem fixData_out {i : Nat} (hip : i≠24 ∧ i≠25) (hl4 : i≠l4CksumAt d ∧ i≠l4CksumAt d+1) :
    fixData e d i=d i := by
  rw [fixData,fillCksum_eq_store16,store16_out (by omega),fillCksum_eq_store16,
    store16_out (by omega)]

/-- The IP header verifies once its checksum is filled in, whatever it was before. -/
theorem fillCksum_header_verifies (h : 5 ≤ ihl d) :
    HeaderVerifies (fillCksum e 24 (ipv4Cksum e) d) := by
  have hzero : SameHeader d (store16 e d 24 0) := store16_sameHeader (.inl rfl)
  have hsame : SameHeader d (fillCksum e 24 (ipv4Cksum e) d) := fillCksum_sameHeader (.inl rfl) _
  have hsum : 2^16-1 ∣ hostSum e (fillCksum e (14+10) (ipv4Cksum e) d) 14 (ihl d*4) := by
    have hdvd := dvd_ipv4Cksum (e:=e) (d:=store16 e d (14+10) 0)
    rw [hzero.ihl] at hdvd
    rw [hostSum_fillCksum rfl (by omega) complement16_lt]
    exact hdvd
  have hfirst : (fillCksum e 24 (ipv4Cksum e) d 14).toNat≠0 := by
    intro hz
    rw [← hsame.ihl,ihl,BitVec.toNat_and,hz,Nat.zero_and] at h
    omega
  rw [HeaderVerifies,hsame.ihl]
  exact (verifies_iff_dvd bytesAt_lt (mem_bytesAt (i:=0) (by omega)) hfirst).mpr hsum

/-- `struct ipv4_psd_header` holds the pseudo-header of what follows the IP header. -/
theorem bytesAt_psdHdr_eq (h : ihl d*4 ≤ totalLength d) : bytesAt (psdHdr d) 0 12=
    bytesAt d 26 8++[0,(nextProtoId d).toNat,(totalLength d-ihl d*4)/256,
      (totalLength d-ihl d*4)%256] := by
  have hlen : totalLength d < 2^16 := (be16 d 16).isLt
  have hpsd : psdLen d=totalLength d-ihl d*4 := by
    unfold psdLen
    omega
  have hfront : bytesAt (psdHdr d) 0 8=bytesAt d 26 8 := by
    apply bytesAt_congr
    intro i hi
    rw [psdHdr,Nat.zero_add,if_pos hi]
  have hback : bytesAt (psdHdr d) (0+8) 4=[0,(nextProtoId d).toNat,(totalLength d-ihl d*4)/256,
      (totalLength d-ihl d*4)%256] := by
    simp [bytesAt,psdHdr,hpsd]
    omega
  rw [show 12=8+4 from rfl,bytesAt_append,hfront,hback]

namespace Segment

variable (h : Segment d len)
include h

theorem proto : nextProtoId d=ipprotoTcp ∨ nextProtoId d=ipprotoUdp := by
  rcases h.l4 with ⟨htcp,_⟩ | ⟨hudp,_⟩
  · exact .inl htcp
  · exact .inr hudp

theorem exists_l4CksumAt :
    ∃ k,l4CksumAt d=l4Offset d+k ∧ k%2=0 ∧ 6 ≤ k ∧ k+2 ≤ totalLength d-ihl d*4 := by
  have hlen := h.present
  unfold l4CksumAt
  rcases h.l4 with ⟨htcp,hroom⟩ | ⟨hudp,hroom,_⟩
  · refine ⟨16,by rw [if_pos htcp],rfl,by decide,?_⟩
    unfold l4Offset at hroom
    omega
  · refine ⟨6,by rw [if_neg (by rw [hudp]; decide)],rfl,by decide,?_⟩
    unfold l4Offset at hroom
    omega

theorem le_l4CksumAt : l4Offset d+6 ≤ l4CksumAt d := by
  obtain ⟨k,hk,_,hge,_⟩ := h.exists_l4CksumAt
  omega

theorem le_l4Offset : 34 ≤ l4Offset d := by
  have hihl := h.ihl_ge
  unfold l4Offset
  omega

theorem segmentLen_eq : segmentLen d=totalLength d-ihl d*4 := by
  have hlen := h.present
  unfold segmentLen
  rcases h.l4 with ⟨htcp,_⟩ | ⟨hudp,_,hdgram⟩
  · rw [if_neg (by rw [htcp]; decide)]
  · rw [if_pos hudp,hdgram,l4Offset]
    omega

theorem bytesAt_psdHdr : bytesAt (psdHdr d) 0 12=pseudoHeader d := by
  obtain ⟨_,_,_,_,hle⟩ := h.exists_l4CksumAt
  rw [bytesAt_psdHdr_eq (by omega),pseudoHeader,h.segmentLen_eq]

theorem congr {d' : Data} (hs : SameHeader d d')
    (hs' : be16 d' (l4Offset d+4)=be16 d (l4Offset d+4)) : Segment d' len := by
  refine ⟨hs.etherType.trans h.ipv4,?_,?_,?_,?_⟩
  · rw [hs.ihl]
    exact h.ihl_ge
  · rw [hs.totalLength]
    exact h.present
  · rw [hs.be16_eq (by decide)]
    exact h.unfragmented
  · rw [hs.nextProtoId,hs.l4Offset,hs']
    exact h.l4

theorem fixData_sameHeader : SameHeader d (fixData e d) := by
  have hp := h.le_l4CksumAt
  have hl := h.le_l4Offset
  intro i hi h24 h25
  exact fixData_out ⟨h24,h25⟩ (by omega)

theorem fixData_segment : Segment (fixData e d) len := by
  have hp := h.le_l4CksumAt
  have hl := h.le_l4Offset
  apply h.congr h.fixData_sameHeader
  rw [be16,be16,fixData_out (by omega) (by omega),fixData_out (by omega) (by omega)]

/-- The IP checksum is computed before the other and does not depend on it. -/
theorem header_verifies : HeaderVerifies (fixData e d) := by
  have hp := h.le_l4CksumAt
  have hsame : SameHeader d (fillCksum e 24 (ipv4Cksum e) d) := fillCksum_sameHeader (.inl rfl) _
  have hbytes : bytesAt (fixData e d) 14 (Umanet.ihl d*4)=
      bytesAt (fillCksum e 24 (ipv4Cksum e) d) 14 (Umanet.ihl d*4) := by
    apply bytesAt_congr
    intro i hi
    unfold l4Offset at hp
    rw [fixData,fillCksum_eq_store16 (o:=l4CksumAt d),store16_out (by omega)]
  have hip := fillCksum_header_verifies (e:=e) h.ihl_ge
  rw [HeaderVerifies,hsame.ihl] at hip
  rw [HeaderVerifies,h.fixData_sameHeader.ihl,hbytes]
  exact hip

theorem zeroed_sameHeader :
    SameHeader d (store16 e (fillCksum e 24 (ipv4Cksum e) d) (l4CksumAt d) 0) := by
  have hp := h.le_l4CksumAt
  have hl := h.le_l4Offset
  exact (fillCksum_sameHeader (.inl rfl) _).trans (store16_sameHeader (.inr (by omega)))

theorem segment_verifies : SegmentVerifies (fixData e d) := by
  obtain ⟨k,hk,heven,hge,hle⟩ := h.exists_l4CksumAt
  have ht := h.fixData_segment (e:=e)
  have hsame := h.fixData_sameHeader (e:=e)
  have hzero := h.zeroed_sameHeader (e:=e)
  have hhead : words 256 e (pseudoHeader (fixData e d))=words 256 e (bytesAt (psdHdr d) 0 12) := by
    rw [← ht.bytesAt_psdHdr,hsame.psdHdr]
  have hlen : (pseudoHeader (fixData e d)).length=12 := by
    rw [← ht.bytesAt_psdHdr,bytesAt_length]
  have hsum : 2^16-1 ∣ (words 256 e (pseudoHeader (fixData e d)++
      bytesAt (fixData e d) (l4Offset d) (totalLength d-Umanet.ihl d*4))).sum := by
    have hdvd := dvd_udptcpCksum (e:=e)
      (d:=store16 e (fillCksum e 24 (ipv4Cksum e) d) (l4CksumAt d) 0)
      (by rw [hzero.ihl,hzero.totalLength]; omega)
    rw [hzero.psdHdr,hzero.l4Offset,hzero.totalLength,hzero.ihl,hk] at hdvd
    rw [words_append (by rw [hlen]),List.sum_append,hhead]
    change 2^16-1 ∣ hostSum e (psdHdr d) 0 12+
      hostSum e (fixData e d) (l4Offset d) (totalLength d-Umanet.ihl d*4)
    rw [fixData,hk,hostSum_fillCksum heven hle udptcpCksum_lt,← Nat.add_assoc]
    exact hdvd
  have hproto : (nextProtoId (fixData e d)).toNat≠0 := by
    rcases ht.proto with htcp | hudp
    · rw [htcp]
      decide
    · rw [hudp]
      decide
  have hlt : ∀ b∈pseudoHeader (fixData e d)++
      bytesAt (fixData e d) (l4Offset d) (totalLength d-Umanet.ihl d*4),b < 256 := by
    intro b hb
    rcases List.mem_append.mp hb with hb | hb
    · rw [← ht.bytesAt_psdHdr] at hb
      exact bytesAt_lt b hb
    · exact bytesAt_lt b hb
  rw [SegmentVerifies,ht.segmentLen_eq,hsame.l4Offset,hsame.totalLength,hsame.ihl]
  exact (verifies_iff_dvd hlt (by simp [pseudoHeader]) hproto).mpr hsum

theorem udp_cksum_ne_zero (hudp : nextProtoId d=ipprotoUdp) :
    be16 (fixData e d) (l4CksumAt d)≠0 := by
  have hne : udptcpCksum e (store16 e (fillCksum e 24 (ipv4Cksum e) d) (l4CksumAt d) 0)≠0 :=
    udptcpCksum_udp_ne_zero ((h.zeroed_sameHeader (e:=e)).nextProtoId.trans hudp)
  intro hzero
  have hload : load16 e (fixData e d) (l4CksumAt d)=0 := by
    rw [load16_eq_zero_iff .big,← be16_toNat,hzero]
    rfl
  rw [fixData,fillCksum,load16_store16 udptcpCksum_lt] at hload
  exact hne hload

theorem fixData_fixData : fixData e (fixData e d)=fixData e d := by
  have hp := h.le_l4CksumAt
  have hl := h.le_l4Offset
  have hzero : l4Offset (store16 e (fillCksum e 24 (ipv4Cksum e) d) 24 0)=l4Offset d :=
    ((fillCksum_sameHeader (.inl rfl) _).trans (store16_sameHeader (.inl rfl))).l4Offset
  have hip : fillCksum e 24 (ipv4Cksum e) (fixData e d)=fixData e d := by
    rw [fixData,fillCksum_eq_store16 (o:=l4CksumAt d),fillCksum_store16 (by omega),
      fillCksum_fillCksum]
    exact ipv4Cksum_store16 (by omega) (by rw [hzero]; omega)
  conv_lhs => rw [fixData,hip,h.fixData_sameHeader.l4CksumAt,fixData,fillCksum_fillCksum]
  rfl

theorem l4HeaderLen_fixData : l4HeaderLen (fixData e d)=l4HeaderLen d := by
  have hl := h.le_l4Offset
  have hsame := h.fixData_sameHeader (e:=e)
  unfold l4HeaderLen
  rw [hsame.nextProtoId,hsame.l4Offset]
  split
  · next htcp =>
    have hp : l4CksumAt d=l4Offset d+16 := by rw [l4CksumAt,if_pos htcp]
    rw [fixData_out (by omega) (by omega)]
  · rfl

end Segment

theorem dataOff_toNat (b : Byte) : (b >>> 4).toNat*4%2^8=b.toNat/16*4 := by
  have hlt := b.isLt
  rw [BitVec.toNat_ushiftRight,Nat.shiftRight_eq_div_pow]
  omega

/-- fix_cksum of a TCP or UDP packet, or of what looks like one by its IP header. -/
theorem fixCksum_l4 {m : Mbuf} (hty : etherType m.data=etherTypeIpv4) (hge : 5 ≤ ihl m.data)
    (hproto : nextProtoId m.data=ipprotoTcp ∨ nextProtoId m.data=ipprotoUdp) : fixCksum e m=
    ⟨m.olFlags &&& ~~~txFlags,0,14,ihl m.data*4,l4HeaderLen m.data,fixData e m.data⟩ := by
  have hsame : SameHeader m.data (fillCksum e 24 (ipv4Cksum e) m.data) :=
    fillCksum_sameHeader (.inl rfl) _
  have hihl : ihl m.data*4%2^9=ihl m.data*4 := by
    have hle := ihl_le m.data
    omega
  have hoff : fillCksum e 24 (ipv4Cksum e) m.data (l4Offset m.data+12)=
      m.data (l4Offset m.data+12) := by
    unfold l4Offset
    rw [fillCksum_eq_store16,store16_out (by omega)]
  simp only [fixCksum]
  rw [if_pos hty,hsame.nextProtoId,hsame.l4Offset,hihl,hoff,dataOff_toNat]
  rcases hproto with htcp | hudp
  · rw [if_pos htcp,fixData,l4CksumAt,l4HeaderLen,if_pos htcp,if_pos htcp]
    rfl
  · have hn : nextProtoId m.data≠ipprotoTcp := by
      rw [hudp]
      decide
    rw [if_neg hn,if_pos hudp,fixData,l4CksumAt,l4HeaderLen,if_neg hn,if_neg hn]
    rfl

theorem fixCksum_eq {m : Mbuf} (h : Segment m.data len) : fixCksum e m=
    ⟨m.olFlags &&& ~~~txFlags,0,14,ihl m.data*4,l4HeaderLen m.data,fixData e m.data⟩ :=
  fixCksum_l4 h.ipv4 h.ihl_ge h.proto

theorem fixCksum_fixCksum {m : Mbuf} (h : Segment m.data len) :
    fixCksum e (fixCksum e m)=fixCksum e m := by
  have hdata : (fixCksum e m).data=fixData e m.data := by rw [fixCksum_eq h]
  have hflags : (fixCksum e m).olFlags=m.olFlags &&& ~~~txFlags := by rw [fixCksum_eq h]
  have hseg : Segment (fixCksum e m).data len := by
    rw [hdata]
    exact h.fixData_segment
  rw [fixCksum_eq hseg,hdata,hflags,h.fixData_sameHeader.ihl,h.l4HeaderLen_fixData,
    h.fixData_fixData,BitVec.and_assoc,BitVec.and_self,fixCksum_eq h]

/-- After fix_cksum both checksums verify, nothing else of the frame has changed, the length
fields are those of the headers, and fixing again changes nothing. -/
theorem fix_cksum_verifies (e : Endian) (m : Mbuf) (len : Nat) (h : Segment m.data len) :
    HeaderVerifies (fixCksum e m).data ∧ SegmentVerifies (fixCksum e m).data ∧
    (nextProtoId m.data=ipprotoUdp → be16 (fixCksum e m).data (l4CksumAt m.data)≠0) ∧
    (∀ i,i≠24 ∧ i≠25 → i≠l4CksumAt m.data ∧ i≠l4CksumAt m.data+1 →
      (fixCksum e m).data i=m.data i) ∧
    (fixCksum e m).l2Len=14 ∧ (fixCksum e m).l3Len=ihl m.data*4 ∧
    (fixCksum e m).l4Len=l4HeaderLen m.data ∧ fixCksum e (fixCksum e m)=fixCksum e m := by
  refine ⟨?_,?_,?_,?_,?_,?_,?_,fixCksum_fixCksum h⟩
  all_goals rw [fixCksum_eq h]
  · exact h.header_verifies
  · exact h.segment_verifies
  · exact h.udp_cksum_ne_zero
  · intro i hip hl4
    exact fixData_out hip hl4

/-- A UDP datagram with one byte of payload, 192.168.100.5 to 192.168.100.9, and old
checksums. -/
def oddDatagram : Data := fun o =>
  match o with
  | 12 => 8 | 14 => 0x45 | 17 => 29 | 23 => 17 | 24 => 0xde | 25 => 0xad
  | 39 => 9 | 40 => 0xbe | 41 => 0xef | 42 => 0x61
  | _ => ipv4Frame 5 9 o

theorem fix_cksum_oddDatagram : Segment oddDatagram 43 ∧
    SegmentVerifies (fixCksum .little ⟨0,0,0,0,0,oddDatagram⟩).data ∧
    be16 (fixCksum .little ⟨0,0,0,0,0,oddDatagram⟩).data 40≠0 := by
  have h : Segment oddDatagram 43 :=
    ⟨by decide,by decide,by decide,by decide,.inr ⟨by decide,by decide,by decide⟩⟩
  obtain ⟨_,hsegment,hne,_⟩ := fix_cksum_verifies .little ⟨0,0,0,0,0,oddDatagram⟩ 43 h
  exact ⟨h,hsegment,hne (by decide)⟩

end

end Umanet
