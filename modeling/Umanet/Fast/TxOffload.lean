import Umanet.Fast.Cksum
import Umanet.Fast.EthTxConservation
import Umanet.Fast.Rewrite

namespace Umanet

/-- `PKT_MTU`, which network_init sets as the MTU of the port. -/
def pktMtu : Nat := 9000

/-- `MBUF_SIZE` without the headroom of 128 bytes. -/
def mbufData : Nat := 9728-128

/-- `RTE_MBUF_F_TX_TCP_SEG`, `_IPV4`, `_IP_CKSUM`, `_TCP_CKSUM` and `_UDP_CKSUM` -/
def txTcpSeg : BitVec 64 := 1 <<< 50
def txIpv4 : BitVec 64 := 1 <<< 55
def txIpCksum : BitVec 64 := 1 <<< 54
def txTcpCksum : BitVec 64 := 1 <<< 52
def txUdpCksum : BitVec 64 := 3 <<< 52

/-- An mbuf on its way to the NIC, with the number of segments it is chained from. -/
structure TxMbuf extends Mbuf where
  nbSegs : Nat

/-- pkts_set_tso_flags, for one packet. The length fields of the mbuf have 7, 9 and 8 bits and
`tso_segsz` has 16. -/
def setTsoFlags (m : TxMbuf) : TxMbuf :=
  if etherType m.data=etherTypeIpv4 then
    let m := {m with l2Len:=14%2^7,l3Len:=ihl m.data*4%2^9}
    if nextProtoId m.data=ipprotoTcp then
      let m := {m with
        olFlags:=m.olFlags ||| (txIpv4 ||| txTcpCksum ||| txIpCksum)
        l4Len:=(m.data (l4Offset m.data+12) >>> 4).toNat*4%2^8}
      if 1 < m.nbSegs then {m with
        olFlags:=m.olFlags ||| txTcpSeg
        tsoSegsz:=toU16 (pktMtu-m.l3Len-m.l4Len)}
      else {m with olFlags:=m.olFlags &&& ~~~txTcpSeg,tsoSegsz:=0}
    else if nextProtoId m.data=ipprotoUdp then
      {m with olFlags:=m.olFlags ||| (txIpv4 ||| txIpCksum ||| txUdpCksum)}
    else {m with olFlags:=m.olFlags ||| (txIpv4 ||| txIpCksum)}
  else {m with olFlags:=0}

/-- `ol_flags & RTE_MBUF_F_TX_TCP_SEG` -/
def TxMbuf.HasTcpSeg (m : TxMbuf) : Prop := m.olFlags &&& txTcpSeg≠0

instance (m : TxMbuf) : Decidable m.HasTcpSeg := inferInstanceAs (Decidable (_≠_))

def fewestSegs (len : Nat) : Nat := (len+mbufData-1)/mbufData

/-- IP lengths of the packets the NIC makes of an IP packet of n bytes: the headers and a piece
of at most `tso_segsz` bytes of the payload. -/
def tsoPackets (m : TxMbuf) (n : Nat) : List Nat :=
  let headers := m.l3Len+m.l4Len
  (List.range ((n-headers+m.tsoSegsz-1)/m.tsoSegsz)).map fun i =>
    headers+min m.tsoSegsz (n-headers-i*m.tsoSegsz)

/-- An IP packet of n bytes is to be segmented if and only if it is longer than the MTU, and then
into packets that are not. -/
def TsoExact (m : TxMbuf) (n : Nat) : Prop :=
  (m.HasTcpSeg ↔ pktMtu < n) ∧
    (m.HasTcpSeg → 0 < m.tsoSegsz ∧ ∀ l∈tsoPackets m n,l ≤ pktMtu)

section
variable {w : Nat} (x f g : BitVec w)

theorem or_or_self : x ||| f ||| f=x ||| f := by
  rw [BitVec.or_assoc,BitVec.or_self]

theorem or_or_twice : x ||| f ||| g ||| f ||| g=x ||| f ||| g := by
  ext i
  simp only [BitVec.getElem_or]
  cases x[i] <;> cases f[i] <;> cases g[i] <;> rfl

theorem or_andNot_twice : ((x ||| f) &&& ~~~g ||| f) &&& ~~~g=(x ||| f) &&& ~~~g := by
  ext i
  simp only [BitVec.getElem_or,BitVec.getElem_and,BitVec.getElem_not]
  cases x[i] <;> cases f[i] <;> cases g[i] <;> rfl

theorem and_or_of_disjoint (h : f &&& g=0) : (x ||| f) &&& g=x &&& g := by
  rw [BitVec.and_or_distrib_right,h]
  exact BitVec.or_zero

end

section
variable {m : TxMbuf}

/-- The three things that can happen to a packet: TCP, another protocol over IPv4, no IPv4. -/
theorem setTsoFlags_tcp (hty : etherType m.data=etherTypeIpv4)
    (htcp : nextProtoId m.data=ipprotoTcp) : setTsoFlags m={m with
      l2Len:=14,l3Len:=ihl m.data*4,l4Len:=l4HeaderLen m.data
      olFlags:=if 1 < m.nbSegs then m.olFlags ||| (txIpv4 ||| txTcpCksum ||| txIpCksum) ||| txTcpSeg
        else (m.olFlags ||| (txIpv4 ||| txTcpCksum ||| txIpCksum)) &&& ~~~txTcpSeg
      tsoSegsz:=if 1 < m.nbSegs then pktMtu-ihl m.data*4-l4HeaderLen m.data else 0} := by
  have hihl := ihl_le m.data
  have hoff := (m.data (l4Offset m.data+12)).isLt
  have hsegsz : toU16 ((pktMtu : Int)-((ihl m.data*4 : Nat) : Int)-
      (((m.data (l4Offset m.data+12)).toNat/16*4 : Nat) : Int))=
      pktMtu-ihl m.data*4-(m.data (l4Offset m.data+12)).toNat/16*4 := by
    rw [toU16,pktMtu]
    omega
  rw [setTsoFlags,if_pos hty,l4HeaderLen,if_pos htcp]
  simp only [htcp,if_true,dataOff_toNat]
  rw [show ihl m.data*4%2^9=ihl m.data*4 by omega,hsegsz]
  split_ifs <;> rfl

theorem setTsoFlags_other (hty : etherType m.data=etherTypeIpv4)
    (htcp : nextProtoId m.data≠ipprotoTcp) : setTsoFlags m={m with
      l2Len:=14,l3Len:=ihl m.data*4
      olFlags:=m.olFlags ||| if nextProtoId m.data=ipprotoUdp then
        txIpv4 ||| txIpCksum ||| txUdpCksum else txIpv4 ||| txIpCksum} := by
  have hihl := ihl_le m.data
  rw [setTsoFlags,if_pos hty]
  simp only [htcp,if_false]
  rw [show ihl m.data*4%2^9=ihl m.data*4 by omega]
  split_ifs <;> rfl

theorem setTsoFlags_nonIp (hty : etherType m.data≠etherTypeIpv4) :
    setTsoFlags m={m with olFlags:=0} := if_neg hty

@[simp] theorem setTsoFlags_data : (setTsoFlags m).data=m.data := by
  by_cases hty : etherType m.data=etherTypeIpv4
  · by_cases htcp : nextProtoId m.data=ipprotoTcp
    · rw [setTsoFlags_tcp hty htcp]
    · rw [setTsoFlags_other hty htcp]
  · rw [setTsoFlags_nonIp hty]

theorem setTsoFlags_setTsoFlags : setTsoFlags (setTsoFlags m)=setTsoFlags m := by
  by_cases hty : etherType m.data=etherTypeIpv4
  · have hty' : etherType (setTsoFlags m).data=etherTypeIpv4 := by rw [setTsoFlags_data,hty]
    by_cases htcp : nextProtoId m.data=ipprotoTcp
    · have htcp' : nextProtoId (setTsoFlags m).data=ipprotoTcp := by rw [setTsoFlags_data,htcp]
      rw [setTsoFlags_tcp hty' htcp',setTsoFlags_tcp hty htcp]
      simp only [TxMbuf.mk.injEq,Mbuf.mk.injEq,and_true]
      split_ifs
      · exact or_or_twice _ _ _
      · exact or_andNot_twice _ _ _
    · have htcp' : nextProtoId (setTsoFlags m).data≠ipprotoTcp := by rwa [setTsoFlags_data]
      rw [setTsoFlags_other hty' htcp',setTsoFlags_other hty htcp]
      simp only [TxMbuf.mk.injEq,Mbuf.mk.injEq,and_true]
      exact or_or_self _ _
  · have hty' : etherType (setTsoFlags m).data≠etherTypeIpv4 := by rwa [setTsoFlags_data]
    rw [setTsoFlags_nonIp hty',setTsoFlags_nonIp hty]

theorem hasTcpSeg_tcp (hty : etherType m.data=etherTypeIpv4)
    (htcp : nextProtoId m.data=ipprotoTcp) : (setTsoFlags m).HasTcpSeg ↔ 1 < m.nbSegs := by
  rw [TxMbuf.HasTcpSeg,setTsoFlags_tcp hty htcp]
  split_ifs with hsegs
  · refine iff_of_true ?_ hsegs
    rw [BitVec.and_or_distrib_right,BitVec.and_self]
    intro hzero
    have hseg := (BitVec.or_eq_zero_iff.mp hzero).2
    revert hseg
    decide
  · refine iff_of_false ?_ hsegs
    rw [BitVec.and_assoc,BitVec.and_comm (~~~txTcpSeg),BitVec.and_not_self]
    exact fun hne => hne BitVec.and_zero

theorem hasTcpSeg_other (hty : etherType m.data=etherTypeIpv4)
    (htcp : nextProtoId m.data≠ipprotoTcp) : (setTsoFlags m).HasTcpSeg ↔ m.HasTcpSeg := by
  rw [TxMbuf.HasTcpSeg,setTsoFlags_other hty htcp,TxMbuf.HasTcpSeg]
  split_ifs
  · rw [and_or_of_disjoint _ _ _ (by decide)]
  · rw [and_or_of_disjoint _ _ _ (by decide)]

theorem hasTcpSeg_nonIp (hty : etherType m.data≠etherTypeIpv4) : ¬(setTsoFlags m).HasTcpSeg := by
  rw [TxMbuf.HasTcpSeg,setTsoFlags_nonIp hty]
  exact fun hne => hne BitVec.zero_and

/-- A packet of IP length n is chained from several segments if and only if the frame does not
fit into one. -/
theorem one_lt_fewestSegs (n : Nat) : 1 < fewestSegs (14+n) ↔ mbufData-14 < n := by
  unfold fewestSegs mbufData
  omega

theorem tsoPackets_le {k n : Nat} (h : m.l3Len+m.l4Len+m.tsoSegsz ≤ k) :
    ∀ l∈tsoPackets m n,l ≤ k := by
  intro l hl
  obtain ⟨i,-,rfl⟩ := List.mem_map.mp hl
  have hmin := Nat.min_le_left m.tsoSegsz (n-(m.l3Len+m.l4Len)-i*m.tsoSegsz)
  omega

theorem tsoPackets_setTsoFlags (hty : etherType m.data=etherTypeIpv4)
    (htcp : nextProtoId m.data=ipprotoTcp) (hsegs : 1 < m.nbSegs) (n : Nat) :
    0 < (setTsoFlags m).tsoSegsz ∧ ∀ l∈tsoPackets (setTsoFlags m) n,l ≤ pktMtu := by
  have hihl := ihl_le m.data
  have hl4 : l4HeaderLen m.data ≤ 60 := by
    have hoff := (m.data (l4Offset m.data+12)).isLt
    rw [l4HeaderLen,if_pos htcp]
    omega
  have hmtu : pktMtu=9000 := rfl
  have hsegsz : (setTsoFlags m).tsoSegsz=pktMtu-ihl m.data*4-l4HeaderLen m.data := by
    rw [setTsoFlags_tcp hty htcp]
    exact if_pos hsegs
  have hlens : (setTsoFlags m).l3Len=ihl m.data*4 ∧ (setTsoFlags m).l4Len=l4HeaderLen m.data := by
    rw [setTsoFlags_tcp hty htcp]
    exact ⟨rfl,rfl⟩
  refine ⟨by omega,tsoPackets_le ?_⟩
  omega

end

/-- A guest's packet of n bytes of IP, in the fewest mbufs: a TCP packet is treated as it should
be if and only if it fits the MTU or does not fit one mbuf; in between it is sent too long. A
packet goes out without the flag and longer than the MTU in these and only these cases: such a TCP
packet, a packet of another protocol unless it came with the flag, or no IPv4 packet. -/
theorem tso_flags_exact_iff (m : TxMbuf) (n : Nat) (hsegs : m.nbSegs=fewestSegs (14+n)) :
    (etherType m.data=etherTypeIpv4 → nextProtoId m.data=ipprotoTcp →
      (TsoExact (setTsoFlags m) n ↔ n ≤ pktMtu ∨ mbufData-14 < n)) ∧
    ((¬(setTsoFlags m).HasTcpSeg → n ≤ pktMtu) ↔
      n ≤ pktMtu ∨ etherType m.data=etherTypeIpv4 ∧
        if nextProtoId m.data=ipprotoTcp then mbufData-14 < n else m.HasTcpSeg) := by
  have hmtu : pktMtu=9000 := rfl
  have hdata : mbufData=9600 := rfl
  have hchain := one_lt_fewestSegs n
  rw [← hsegs] at hchain
  constructor
  · intro hty htcp
    have hseg := (hasTcpSeg_tcp hty htcp).trans hchain
    unfold TsoExact
    rw [hseg]
    constructor
    · rintro ⟨hiff,-⟩
      omega
    · intro hn
      refine ⟨by omega,?_⟩
      intro hlong
      exact tsoPackets_setTsoFlags hty htcp (hchain.mpr hlong) n
  · by_cases hty : etherType m.data=etherTypeIpv4
    · by_cases htcp : nextProtoId m.data=ipprotoTcp
      · rw [hasTcpSeg_tcp hty htcp,hchain,if_pos htcp,and_iff_right hty]
        omega
      · rw [hasTcpSeg_other hty htcp,if_neg htcp]
        tauto
    · have hseg := hasTcpSeg_nonIp hty
      tauto

/-- A TCP packet, 192.168.100.5 to 192.168.100.9, without options. -/
def tcpFrame : Data := fun o =>
  match o with
  | 12 => 8 | 14 => 0x45 | 23 => 6 | 46 => 0x50
  | _ => ipv4Frame 5 9 o

/-- A packet of two mbufs: 9587 bytes of IP become packets of 9000 and 627 bytes. -/
theorem tso_flags_exact_chained :
    TsoExact (setTsoFlags ⟨⟨0,0,0,0,0,tcpFrame⟩,fewestSegs (14+9587)⟩) 9587 ∧
    tsoPackets (setTsoFlags ⟨⟨0,0,0,0,0,tcpFrame⟩,fewestSegs (14+9587)⟩) 9587=[9000,627] := by
  refine ⟨?_,by decide +kernel⟩
  exact ((tso_flags_exact_iff ⟨⟨0,0,0,0,0,tcpFrame⟩,fewestSegs (14+9587)⟩ 9587 rfl).1
    (by decide) (by decide)).mpr (.inr (by decide))

/-- 9001 bytes of IP fit one mbuf and not the MTU. -/
theorem tso_flags_missing :
    ¬(setTsoFlags ⟨⟨0,0,0,0,0,tcpFrame⟩,fewestSegs (14+9001)⟩).HasTcpSeg ∧ pktMtu < 9001 ∧
    etherType tcpFrame=etherTypeIpv4 ∧ nextProtoId tcpFrame=ipprotoTcp := by
  decide +kernel

end Umanet
